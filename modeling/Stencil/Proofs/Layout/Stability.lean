import Stencil.Layout.Merge
import Stencil.Proofs.Layout.Renaming

/-!
# Which slots keep their reference

Page level is one namespace, so the references of a normalized layout are the names that the
references of the layout get one after the other (`references_normalized`).  A slot keeps its
reference exactly if no slot before it has got it as its name.  So a later slot with the same
reference never keeps it, and the first one loses it exactly if a slot before it was numbered into
it (`stability_normalized`).  That happens to layouts that are normalized again after a merge
(`not_keepsFirst_of_merge`), but not to one in which no reference is a numbered form of another one
that occurs twice before it.
-/

namespace Stencil

/-! ## Names given one after the other -/

namespace Namespace

/-- The names that references get one after the other. -/
def reserveAll (used : Namespace) : List String → List String
  | [] => []
  | reference :: references =>
      used.fresh reference :: reserveAll (used.fresh reference :: used) references

theorem reserveAll_append (used : Namespace) (references more : List String) :
    used.reserveAll (references ++ more) =
      used.reserveAll references ++
        reserveAll ((used.reserveAll references).reverse ++ used) more := by
  induction references generalizing used with
  | nil => rfl
  | cons reference references ih =>
      simp only [List.cons_append, reserveAll, ih, List.reverse_cons, List.append_assoc,
        List.nil_append]

/-- A name is the first free one after those that were given before. -/
theorem getElem?_reserveAll (used : Namespace) (references : List String) (i : Nat) :
    (used.reserveAll references)[i]? =
      references[i]?.map
        (fresh (((used.reserveAll references).take i).reverse ++ used)) := by
  induction references generalizing used i with
  | nil => rfl
  | cons reference references ih =>
      cases i with
      | zero => rfl
      | succ i =>
          rw [reserveAll, List.getElem?_cons_succ, List.getElem?_cons_succ, ih, List.take_succ_cons,
            List.reverse_cons, List.append_assoc]
          rfl

theorem fresh_eq_self_iff (used : Namespace) (reference : String) :
    used.fresh reference = reference ↔ reference ∉ used := by
  constructor
  · intro h
    have hunused := used.fresh_notMem reference
    rwa [h] at hunused
  · intro hunused
    exact congrArg Prod.fst (reserve_of_notMem hunused)

theorem numbered_ne_self (reference : String) (n : Nat) : numbered reference n ≠ reference := by
  intro h
  have hlength := congrArg String.length h
  have hone : "_".length = 1 := rfl
  simp only [numbered, String.length_append] at hlength
  omega

end Namespace

theorem Attribute.references_rename (used : Namespace) (attrs : List Attribute) :
    references (rename used attrs).1 = used.reserveAll (references attrs) := by
  induction attrs generalizing used with
  | nil => rfl
  | cons attr attrs ih =>
      obtain ⟨name, value⟩ := attr
      cases value with
      | literal value => exact ih used
      | var reference | conditional reference => exact congrArg (_ :: ·) (ih _)

theorem Attribute.rename_used (used : Namespace) (attrs : List Attribute) :
    (rename used attrs).2 = (used.reserveAll (references attrs)).reverse ++ used := by
  rw [(reserves_rename used attrs).later_eq, references_rename]

namespace Node

theorem renameList_used
    {used : Namespace} {nodes : List Node}
    (h : referencesList (renameList used nodes).1 = used.reserveAll (referencesList nodes)) :
    (renameList used nodes).2 = (used.reserveAll (referencesList nodes)).reverse ++ used := by
  rw [(reserves_renameList used nodes).later_eq, h]

/-- Renaming gives the references of a tree their names one after the other. -/
theorem referencesList_renameList (used : Namespace) (nodes : List Node) :
    referencesList (renameList used nodes).1 = used.reserveAll (referencesList nodes) := by
  induction nodes using Node.inductionOn generalizing used with
  | nil => rfl
  | doctype value nodes ih | text value nodes ih | comment value nodes ih | content nodes ih =>
      exact ih used
  | element name attrs children nodes ihChildren ih =>
      simp only [renameList, rename, referencesList, references, Namespace.reserveAll_append]
      rw [Attribute.references_rename, ih, renameList_used (ihChildren _), ihChildren,
        Attribute.rename_used]
      simp only [List.reverse_append, List.append_assoc]
  | var reference nodes ih | markdown reference nodes ih | loop reference _ nodes _ ih =>
      exact congrArg (_ :: ·) (ih _)
  | conditional reference child nodes ihChild ih =>
      have hchild := ihChild (used.reserve reference).2
      have hused := renameList_used hchild
      simp only [renameList, referencesList, List.append_nil] at hchild hused
      simp only [renameList, rename, referencesList, references, List.cons_append,
        Namespace.reserveAll, Namespace.reserveAll_append]
      rw [ih, hchild, hused]
      rfl

end Node

/-! ## Slots of a layout -/

namespace Layout

/-- The references of a layout get their names one after the other. -/
theorem references_normalized (layout : Layout) :
    layout.normalized.references = Namespace.reserveAll [] layout.references :=
  Node.referencesList_renameList [] layout.tree

/-- The first slot with a reference keeps it. -/
def KeepsFirst (layout : Layout) : Prop :=
  ∀ i reference, layout.references[i]? = some reference →
    reference ∉ layout.references.take i → layout.normalized.references[i]? = some reference

/-- Where a reference is met first, it is no numbered form of one that was met twice before. -/
def NumbersApart (layout : Layout) : Prop :=
  ∀ i reference, layout.references[i]? = some reference → reference ∉ layout.references.take i →
    ∀ other n, 2 ≤ n → reference = Namespace.numbered other n →
      (layout.references.take i).count other ≤ 1

theorem mem_take_iff {names : List String} {name : String} {i : Nat} :
    name ∈ names.take i ↔ ∃ j < i, names[j]? = some name := by
  simp only [List.mem_iff_getElem?, List.getElem?_take, Option.ite_none_right_eq_some]

section Slots

variable {layout : Layout} {i : Nat} {reference : String}

/-- A slot is named after its reference and the names before it. -/
theorem getElem?_references_normalized (h : layout.references[i]? = some reference) :
    layout.normalized.references[i]? =
      some (Namespace.fresh (layout.normalized.references.take i).reverse reference) := by
  rw [references_normalized, Namespace.getElem?_reserveAll, h, List.append_nil]
  rfl

/-- A slot keeps its reference exactly if no slot before it has got it. -/
theorem kept_iff (h : layout.references[i]? = some reference) :
    layout.normalized.references[i]? = some reference ↔
      reference ∉ layout.normalized.references.take i := by
  rw [getElem?_references_normalized h, Option.some_inj, Namespace.fresh_eq_self_iff,
    List.mem_reverse]

/-- After a slot, its reference is the name of a slot. -/
theorem mem_take_succ (h : layout.references[i]? = some reference) :
    reference ∈ layout.normalized.references.take (i + 1) := by
  by_cases hbefore : reference ∈ layout.normalized.references.take i
  · exact List.take_subset_take_left _ (Nat.le_succ i) hbefore
  · exact mem_take_iff.mpr ⟨i, Nat.lt_succ_self i, (kept_iff h).mpr hbefore⟩

/-- A slot has its reference as its name, or its reference with a number. -/
theorem renamed_of_getElem? {name : String} (h : layout.normalized.references[i]? = some name) :
    ∃ other, layout.references[i]? = some other ∧ Namespace.Renamed other name := by
  rw [references_normalized, Namespace.getElem?_reserveAll] at h
  obtain ⟨other, hother, rfl⟩ := Option.map_eq_some_iff.mp h
  exact ⟨other, hother, Namespace.renamed_fresh _ other⟩

/-- A slot is renamed exactly if it is not the first one with its reference, or if a slot before it
was numbered into its reference. -/
theorem renamed_iff (h : layout.references[i]? = some reference) :
    layout.normalized.references[i]? ≠ some reference ↔
      reference ∈ layout.references.take i ∨
        ∃ j < i, ∃ other n, layout.references[j]? = some other ∧ 2 ≤ n ∧
          reference = Namespace.numbered other n ∧
          layout.normalized.references[j]? = some reference := by
  rw [ne_eq, kept_iff h, not_not]
  constructor
  · intro htaken
    obtain ⟨j, hj, hname⟩ := mem_take_iff.mp htaken
    obtain ⟨other, hother, rfl | ⟨n, htwo, hnumbered⟩⟩ := renamed_of_getElem? hname
    · exact Or.inl (mem_take_iff.mpr ⟨j, hj, hother⟩)
    · exact Or.inr ⟨j, hj, other, n, hother, htwo, hnumbered, hname⟩
  · rintro (hbefore | ⟨j, hj, -, -, -, -, -, hname⟩)
    · obtain ⟨j, hj, hsame⟩ := mem_take_iff.mp hbefore
      exact List.take_subset_take_left _ hj (mem_take_succ hsame)
    · exact mem_take_iff.mpr ⟨j, hj, hname⟩

/-- Only a numbered form of a reference that was met twice can be taken from a first slot. -/
theorem keepsFirst_of_numbersApart (hapart : layout.NumbersApart) : layout.KeepsFirst := by
  intro i
  induction i using Nat.strongRecOn with
  | ind i ih =>
      intro reference h hfirst
      by_contra hrenamed
      obtain hbefore | ⟨j, hj, other, n, hother, htwo, rfl, hname⟩ := (renamed_iff h).mp hrenamed
      · exact hfirst hbefore
      · -- The slot that was numbered was itself met before: otherwise it would have kept its name.
        have hrepeated : other ∈ layout.references.take j := by
          by_contra hnew
          have hkept := ih j hj other hother hnew
          rw [hname, Option.some_inj] at hkept
          exact Namespace.numbered_ne_self other n hkept
        have hcount : 2 ≤ (layout.references.take (j + 1)).count other := by
          rw [List.take_add_one, hother, List.count_append, Option.toList_some,
            List.count_singleton_self]
          exact Nat.succ_le_succ (List.count_pos_iff.mpr hrepeated)
        have hmore : (layout.references.take (j + 1)).count other ≤
            (layout.references.take i).count other :=
          (List.take_sublist_take_left hj).count_le other
        have hone := hapart i _ h hfirst other n htwo rfl
        omega

end Slots

/-- A slot is renamed exactly if it is a later one with its reference, or if a slot before it was
numbered into its reference.  If no first slot has a numbered form of a reference that was met twice
before it, only later slots are renamed. -/
theorem stability_normalized (layout : Layout) :
    (∀ i reference, layout.references[i]? = some reference →
        (layout.normalized.references[i]? ≠ some reference ↔
          reference ∈ layout.references.take i ∨
            ∃ j < i, ∃ other n, layout.references[j]? = some other ∧ 2 ≤ n ∧
              reference = Namespace.numbered other n ∧
              layout.normalized.references[j]? = some reference)) ∧
      (layout.NumbersApart → layout.KeepsFirst) :=
  ⟨fun _ _ => renamed_iff, keepsFirst_of_numbersApart⟩

/-- The number two is taken by a slot with this reference, so the slot after it gets number three
and both first slots keep their references. -/
theorem stability_normalized_of_taken_number :
    let layout : Layout :=
      ⟨[.element "p" [⟨"class", .var "var1"⟩] [.var "var1_2"], .conditional "var1" (.text "end")]⟩
    layout.references[2]? = some "var1" ∧ layout.NumbersApart ∧
      layout.normalized.references = ["var1", "var1_2", "var1_3"] ∧
      layout.normalized.references[2]? ≠ some "var1" ∧ layout.KeepsFirst := by
  intro layout
  have hthird : layout.references[2]? = some "var1" := by rfl
  have hapart : layout.NumbersApart := by
    intro i reference h hfirst other n _ _
    have hlt : i < 3 := (List.getElem?_eq_some_iff.mp h).1
    have hne : i ≠ 2 := by
      rintro rfl
      obtain rfl : "var1" = reference := Option.some_inj.mp (hthird.symm.trans h)
      exact hfirst (by decide)
    have hlength : (layout.references.take i).length ≤ 1 :=
      Nat.le_trans (List.length_take_le i _) (by omega)
    exact Nat.le_trans List.count_le_length hlength
  obtain ⟨hslots, hkeeps⟩ := layout.stability_normalized
  exact ⟨hthird, hapart, by decide +kernel, (hslots 2 "var1" hthird).mpr (Or.inl (by decide)),
    hkeeps hapart⟩

/-- Three layouts that each have a node of their own at one place.  The second merge puts a node
before the one that the first normalization has numbered, and the number is given again. -/
theorem not_keepsFirst_of_merge :
    let only (name : String) : Layout := ⟨[.conditional "extra0_0_1" (.element name [] [])]⟩
    ¬(((only "c").merge (only "a")).value.normalized.merge (only "b")).value.KeepsFirst := by
  intro only h
  have hmerged : (((only "c").merge (only "a")).value.normalized.merge (only "b")).value =
      ⟨[.conditional "extra0_0_1" (.element "a" [] []),
        .conditional "extra0_0_1" (.element "b" [] []),
        .conditional "extra0_0_1_2" (.element "c" [] [])]⟩ := by decide +kernel
  rw [hmerged] at h
  exact absurd (h 2 "extra0_0_1_2" rfl (by decide)) (by decide +kernel)

end Layout

end Stencil
