import Stencil.Layout.Merge
import Stencil.Proofs.Node.Concrete

/-!
# How two layouts are merged

A merge is a computation; `Node.Merges` says what it does as a relation, one rule for every kind of
step: two nodes without children absorb each other, two elements are merged inside, or a node that
shares a slot with no other is kept as it is.  Guards are put aside for the step and put back
around its result (`Node.merge_eq`).  Every merge follows the rules (`Node.merges_align`), whatever
the layouts are, and what is to be shown of a merge is shown by induction on them.
-/

namespace Stencil.Node

/-! ## Guards and core -/

theorem core_core (node : Node) : node.core.core = node.core := by
  induction node using core.induct with
  | case1 reference child ih => exact ih
  | case2 node hguard => cases node <;> first | rfl | exact absurd rfl (hguard _ _)

theorem guards_core (node : Node) : node.core.guards = [] := by
  induction node using core.induct with
  | case1 reference child ih => exact ih
  | case2 node hguard => cases node <;> first | rfl | exact absurd rfl (hguard _ _)

theorem core_eq_self {node : Node} (h : node.kind ≠ .conditional) : node.core = node := by
  cases node <;> first | rfl | exact absurd rfl h

theorem guards_eq_nil {node : Node} (h : node.kind ≠ .conditional) : node.guards = [] := by
  cases node <;> first | rfl | exact absurd rfl h

theorem kind_core_ne_conditional (node : Node) : node.core.kind ≠ .conditional := by
  induction node using core.induct with
  | case1 reference child ih => exact ih
  | case2 node hguard => cases node <;> first | exact absurd rfl (hguard _ _) | simp [core, kind]

theorem core_guarded (references : List String) (node : Node) :
    (guarded references node).core = node.core := by
  induction references with
  | nil => rfl
  | cons reference references ih => exact ih

/-- The guards of a merged node: those of the first, then those that the second has beyond their
number. -/
def mergedGuards (a b : Node) : List String :=
  a.guards ++ b.guards.drop a.guards.length

/-- A node that is neither a conditional nor an element absorbs or is absorbed. -/
theorem merge_of_leaf
    {a : Node} (hguard : a.kind ≠ .conditional) (hleaf : a.kind ≠ .element) (b : Node) :
    a.merge b = ⟨guarded b.guards (absorb a b.core), []⟩ := by
  cases a with
  | conditional reference child => exact absurd rfl hguard
  | element name attrs children => exact absurd rfl hleaf
  | doctype _ | text _ | comment _ | var _ | content | markdown _ | loop _ _ =>
      rw [merge] <;> first | rfl | simp

theorem merge_of_not_guarded {a : Node} (hguard : a.kind ≠ .conditional) (b : Node) :
    a.merge b = (a.merge b.core).map (guarded b.guards) := by
  by_cases hleaf : a.kind ≠ .element
  · rw [merge_of_leaf hguard hleaf, merge_of_leaf hguard hleaf, core_core, guards_core]
    rfl
  · cases a with
    | element name attrs children =>
        rw [merge, merge, core_core, guards_core]
        cases b.core <;> rfl
    | _ => exact absurd (by simp [kind]) hleaf

/-- Guards are put aside while two nodes are merged. -/
theorem merge_eq (a b : Node) :
    a.merge b = (a.core.merge b.core).map (guarded (mergedGuards a b)) := by
  induction a using core.induct generalizing b with
  | case1 reference child ih =>
      have hpeeled : b.peel.core = b.core ∧ b.peel.guards = b.guards.drop 1 := by
        cases b <;> exact ⟨rfl, rfl⟩
      rw [merge, ih, hpeeled.1, mergedGuards, hpeeled.2, List.drop_drop]
      simp only [mergedGuards, guards, core, Noted.map, List.length_cons, List.cons_append,
        Nat.add_comm]
      rfl
  | case2 node hguard =>
      have hkind : node.kind ≠ .conditional := by
        cases node <;> first | exact absurd rfl (hguard _ _) | simp [kind]
      rw [core_eq_self hkind, mergedGuards, guards_eq_nil hkind]
      exact merge_of_not_guarded hkind b

/-- Nodes without children absorb each other. -/
theorem merge_leaves {a : Node} (hleaf : a.core.kind ≠ .element) (b : Node) :
    a.merge b = ⟨guarded (mergedGuards a b) (absorb a.core b.core), []⟩ := by
  rw [merge_eq, merge_of_leaf (kind_core_ne_conditional a) hleaf, core_core, guards_core]
  rfl

/-- An induction on sibling lists for what looks through guards: the hypothesis for what is below
the first sibling is about the children of its core. -/
theorem inductionOnCores
    {motive : List Node → Prop} (nil : motive [])
    (cons : ∀ node nodes,
      (∀ name attrs children, node.core = .element name attrs children → motive children) →
      motive nodes → motive (node :: nodes))
    (nodes : List Node) : motive nodes := by
  suffices h : motive nodes ∧
      ∀ node ∈ nodes, ∀ name attrs children, node.core = .element name attrs children →
        motive children from h.1
  have hcons : ∀ (node : Node) (nodes : List Node),
      (∀ name attrs children, node.core = .element name attrs children → motive children) →
      (motive nodes ∧ ∀ node ∈ nodes, ∀ name attrs children,
        node.core = .element name attrs children → motive children) →
      motive (node :: nodes) ∧ ∀ other ∈ node :: nodes, ∀ name attrs children,
        other.core = .element name attrs children → motive children := by
    rintro node nodes hbelow ⟨hnodes, hrest⟩
    exact ⟨cons node nodes hbelow hnodes, List.forall_mem_cons.mpr ⟨hbelow, hrest⟩⟩
  induction nodes using Node.inductionOn with
  | nil => exact ⟨nil, by simp⟩
  | element name attrs children nodes ihChildren ih =>
      refine hcons _ _ ?_ ih
      rintro _ _ _ ⟨⟩
      exact ihChildren.1
  | conditional reference child nodes ihChild ih =>
      -- What is below the guard is carried along with the property of the guarded list.
      exact hcons _ _ (ihChild.2 child List.mem_cons_self) ih
  | doctype _ _ ih | text _ _ ih | comment _ _ ih | var _ _ ih | content _ ih | markdown _ _ ih
  | loop _ _ _ _ ih =>
      exact hcons _ _ (by simp [core]) ih

/-! ## Sibling lists -/

/-- The merge of two sibling lists from a position on. -/
def alignFrom (cursor : Alignment.Cursor) (first second : List Node) : Noted Warning (List Node) :=
  Noted.all <|
    (Alignment.stepsFrom (fun a b => equivalent a.node b) (mergeables first) cursor second).map fun
      | .pair a b => a.mergeWith b
      | .first a _ => pure a.node
      | .second b _ => pure b

theorem length_mergeables (nodes : List Node) : (mergeables nodes).length = nodes.length := by
  induction nodes with
  | nil => rfl
  | cons node nodes ih => rw [mergeables, List.length_cons, List.length_cons, ih]

section Steps

variable {cursor : Alignment.Cursor} {a b : Node} {as bs : List Node}

/-- Heads that share a slot are merged. -/
theorem alignFrom_pair (h : equivalent a b = true) :
    alignFrom cursor (a :: as) (b :: bs) =
      { value := (a.merge b).value :: (alignFrom cursor.nextBoth as bs).value
        notes := (a.merge b).notes ++ (alignFrom cursor.nextBoth as bs).notes } := by
  rw [alignFrom, mergeables, Alignment.stepsFrom_cons_cons, if_pos h]
  rfl

theorem alignFrom_first
    (h : ∀ b ∈ bs.head?, equivalent a b = false ∧ bs.length ≤ as.length) :
    alignFrom cursor (a :: as) bs =
      { value := a :: (alignFrom cursor.nextFirst as bs).value
        notes := (alignFrom cursor.nextFirst as bs).notes } := by
  cases bs with
  | nil => rfl
  | cons b bs =>
      obtain ⟨hshare, hlength⟩ := h b rfl
      have hlonger : bs.length < (mergeables as).length := by
        rw [length_mergeables]
        exact hlength
      rw [alignFrom, mergeables, Alignment.stepsFrom_cons_cons, if_neg (by simp [hshare]),
        if_pos hlonger]
      rfl

theorem alignFrom_second
    (h : ∀ a ∈ as.head?, equivalent a b = false ∧ as.length ≤ bs.length + 1) :
    alignFrom cursor as (b :: bs) =
      { value := b :: (alignFrom cursor.nextSecond as bs).value
        notes := (alignFrom cursor.nextSecond as bs).notes } := by
  cases as with
  | nil => rfl
  | cons a as =>
      obtain ⟨hshare, hlength⟩ := h a rfl
      have hshorter : ¬bs.length < (mergeables as).length := by
        rw [length_mergeables]
        simp only [List.length_cons] at hlength
        omega
      rw [alignFrom, mergeables, Alignment.stepsFrom_cons_cons, if_neg (by simp [hshare]),
        if_neg hshorter]
      rfl

end Steps

/-! ## The rules -/

/-- `Merges first second merged notes`: the siblings of two layouts become `merged`, with the
warnings `notes` about attributes that were dropped. -/
inductive Merges : List Node → List Node → List Node → List Warning → Prop
  | nil : Merges [] [] [] []
  | absorb {a b : Node} {as bs merged : List Node} {notes : List Warning}
      (hshare : equivalent a b = true) (hleaf : a.core.kind ≠ .element)
      (hrest : Merges as bs merged notes) :
      Merges (a :: as) (b :: bs)
        (guarded (mergedGuards a b) (Node.absorb a.core b.core) :: merged) notes
  | element {a b : Node} {name : String} {attrs otherAttrs : List Attribute}
      {children otherChildren inner as bs merged : List Node} {innerNotes notes : List Warning}
      (ha : a.core = .element name attrs children)
      (hb : b.core = .element name otherAttrs otherChildren)
      (hinside : Merges children otherChildren inner innerNotes)
      (hrest : Merges as bs merged notes) :
      Merges (a :: as) (b :: bs)
        (guarded (mergedGuards a b)
          (.element name (Attribute.reconcile name attrs otherAttrs).value inner) :: merged)
        ((Attribute.reconcile name attrs otherAttrs).notes ++ innerNotes ++ notes)
  | first {a : Node} {as bs merged : List Node} {notes : List Warning}
      (hlone : ∀ b ∈ bs.head?, equivalent a b = false ∧ bs.length ≤ as.length)
      (hrest : Merges as bs merged notes) :
      Merges (a :: as) bs (a :: merged) notes
  | second {b : Node} {as bs merged : List Node} {notes : List Warning}
      (hlone : ∀ a ∈ as.head?, equivalent a b = false ∧ as.length ≤ bs.length + 1)
      (hrest : Merges as bs merged notes) :
      Merges as (b :: bs) (b :: merged) notes

/-! ## Merging follows the rules -/

/-- Merging with the list follows the rules from every position on. -/
def FollowsMerge (first : List Node) : Prop :=
  ∀ (cursor : Alignment.Cursor) (second : List Node),
    Merges first second (alignFrom cursor first second).value (alignFrom cursor first second).notes

theorem followsMerge_nil : FollowsMerge [] := by
  intro cursor second
  induction second generalizing cursor with
  | nil => exact .nil
  | cons b bs ih =>
      rw [alignFrom_second (by simp)]
      exact .second (by simp) (ih cursor.nextSecond)

theorem merge_elements
    {a b : Node} {name : String} {attrs otherAttrs : List Attribute}
    {children otherChildren : List Node}
    (ha : a.core = .element name attrs children)
    (hb : b.core = .element name otherAttrs otherChildren) :
    a.merge b =
      { value := guarded (mergedGuards a b)
          (.element name (Attribute.reconcile name attrs otherAttrs).value
            (alignFrom {} children otherChildren).value)
        notes := (Attribute.reconcile name attrs otherAttrs).notes ++
          (alignFrom {} children otherChildren).notes } := by
  have hinside : mergeSiblings (mergeables children) otherChildren =
      alignFrom {} children otherChildren := rfl
  rw [merge_eq, ha, hb, merge]
  simp only [core]
  rw [hinside]
  simp [bind, pure, Noted.bind, Noted.map, guards, guarded]

theorem exists_eq_element {node : Node} (h : node.kind = .element) :
    ∃ name attrs children, node = .element name attrs children := by
  cases node <;> simp [kind] at h
  exact ⟨_, _, _, rfl⟩

/-- What shares a slot with an element is an element of the same name. -/
theorem core_eq_element_of_equivalent
    {a b : Node} {name : String} {attrs : List Attribute} {children : List Node}
    (hshare : equivalent a b = true) (ha : a.core = .element name attrs children) :
    ∃ otherAttrs otherChildren, b.core = .element name otherAttrs otherChildren := by
  rw [equivalent, ha] at hshare
  cases hb : b.core <;> simp [hb, sameSlot, kind] at hshare
  case element other otherAttrs otherChildren => exact ⟨otherAttrs, otherChildren, by rw [hshare]⟩

/-- A pair that shares a slot follows one of the rules for pairs. -/
theorem merges_pair
    {a b : Node} {as bs merged : List Node} {notes : List Warning}
    (hshare : equivalent a b = true)
    (hbelow : ∀ name attrs children, a.core = .element name attrs children →
      FollowsMerge children)
    (hrest : Merges as bs merged notes) :
    Merges (a :: as) (b :: bs) ((a.merge b).value :: merged) ((a.merge b).notes ++ notes) := by
  by_cases hleaf : a.core.kind ≠ .element
  · rw [merge_leaves hleaf]
    exact .absorb hshare hleaf hrest
  · obtain ⟨name, attrs, children, ha⟩ := exists_eq_element (not_not.mp hleaf)
    obtain ⟨otherAttrs, otherChildren, hb⟩ := core_eq_element_of_equivalent hshare ha
    rw [merge_elements ha hb]
    exact .element ha hb (hbelow name attrs children ha {} otherChildren) hrest

/-- If what is below a node follows the rules and so do its later siblings, all of them do. -/
theorem followsMerge_cons
    {a : Node} {as : List Node}
    (hbelow : ∀ name attrs children, a.core = .element name attrs children →
      FollowsMerge children)
    (ih : FollowsMerge as) :
    FollowsMerge (a :: as) := by
  intro cursor second
  -- A step may use up a node of the second list and leave `a` where it is.
  induction second generalizing cursor with
  | nil =>
      rw [alignFrom_first (by simp)]
      exact .first (by simp) (ih cursor.nextFirst [])
  | cons b bs ihSecond =>
      by_cases hshare : equivalent a b = true
      · rw [alignFrom_pair hshare]
        exact merges_pair hshare hbelow (ih cursor.nextBoth bs)
      · rw [Bool.not_eq_true] at hshare
        by_cases hlonger : bs.length < as.length
        · have hlone : ∀ other ∈ (b :: bs).head?,
              equivalent a other = false ∧ (b :: bs).length ≤ as.length := by
            simpa [hshare] using Nat.succ_le_of_lt hlonger
          rw [alignFrom_first hlone]
          exact .first hlone (ih cursor.nextFirst (b :: bs))
        · have hlone : ∀ other ∈ (a :: as).head?,
              equivalent other b = false ∧ (a :: as).length ≤ bs.length + 1 := by
            simpa [hshare] using hlonger
          rw [alignFrom_second hlone]
          exact .second hlone (ihSecond cursor.nextSecond)

/-- Merging follows the rules, whatever the first list is. -/
theorem followsMerge (first : List Node) : FollowsMerge first := by
  induction first using inductionOnCores with
  | nil => exact followsMerge_nil
  | cons a as ihBelow ih => exact followsMerge_cons ihBelow ih

/-- The merge of two sibling lists follows the rules. -/
theorem merges_align (first second : List Node) :
    Merges first second (align first second).value (align first second).notes :=
  followsMerge first {} second

/-! ## The rules determine the merge -/

theorem equivalent_of_elements
    {a b : Node} {name : String} {attrs otherAttrs : List Attribute}
    {children otherChildren : List Node}
    (ha : a.core = .element name attrs children)
    (hb : b.core = .element name otherAttrs otherChildren) : equivalent a b = true := by
  rw [equivalent, ha, hb, sameSlot]
  exact beq_self_eq_true name

/-- A merge that follows the rules is the merge. -/
theorem Merges.eq_alignFrom
    {first second merged : List Node} {notes : List Warning}
    (h : Merges first second merged notes) (cursor : Alignment.Cursor) :
    alignFrom cursor first second = ⟨merged, notes⟩ := by
  induction h generalizing cursor with
  | nil => rfl
  | absorb hshare hleaf _ ih =>
      rw [alignFrom_pair hshare, merge_leaves hleaf, ih]
      rfl
  | element ha hb _ _ ihInside ih =>
      rw [alignFrom_pair (equivalent_of_elements ha hb), merge_elements ha hb, ihInside, ih]
  | first hlone _ ih => rw [alignFrom_first hlone, ih]
  | second hlone _ ih => rw [alignFrom_second hlone, ih]

/-- No layout has more siblings than the merge has. -/
theorem Merges.length_le
    {first second merged : List Node} {notes : List Warning}
    (h : Merges first second merged notes) :
    first.length ≤ merged.length ∧ second.length ≤ merged.length := by
  induction h with
  | nil => exact ⟨Nat.le_refl _, Nat.le_refl _⟩
  | absorb _ _ _ ih => exact ⟨Nat.succ_le_succ ih.1, Nat.succ_le_succ ih.2⟩
  | element _ _ _ _ _ ih => exact ⟨Nat.succ_le_succ ih.1, Nat.succ_le_succ ih.2⟩
  | first _ _ ih => exact ⟨Nat.succ_le_succ ih.1, Nat.le_succ_of_le ih.2⟩
  | second _ _ ih => exact ⟨Nat.le_succ_of_le ih.1, Nat.succ_le_succ ih.2⟩

/-! ## Properties that merging keeps -/

/-- The property passes from two nodes to what they are merged into, and holds of no conditional
directly inside a conditional. -/
structure MergeClosed (p : Node → Prop) : Prop where
  flat : ∀ {reference : String} {child : Node},
    p (.conditional reference child) → child.kind ≠ .conditional
  conditional : ∀ {reference : String} {child : Node} (other : Node),
    p (.conditional reference child) → other.kind ≠ .conditional →
      p (.conditional reference other)
  element : ∀ {name : String} {attrs otherAttrs : List Attribute}
    {children otherChildren : List Node} (merged : List Node),
    p (.element name attrs children) → p (.element name otherAttrs otherChildren) →
      p (.element name (Attribute.reconcile name attrs otherAttrs).value merged)

section MergeClosed

variable {p : Node → Prop} {a b node : Node}

theorem everywhere_core (h : Everywhere p [node]) : Everywhere p [node.core] := by
  induction node using core.induct with
  | case1 reference child ih => exact ih (everywhere_conditional.mp h).2.1
  | case2 node hguard =>
      have hkind : node.kind ≠ .conditional := by
        cases node <;> first | exact absurd rfl (hguard _ _) | simp [kind]
      rwa [core_eq_self hkind]

/-- A node has at most one guard. -/
theorem MergeClosed.guards_cases (hp : MergeClosed p) (h : Everywhere p [node]) :
    node.guards = [] ∨ ∃ reference child, node = .conditional reference child ∧
      node.guards = [reference] := by
  by_cases hguard : node.kind = .conditional
  · cases node with
    | conditional reference child =>
        have hflat := hp.flat (everywhere_conditional.mp h).1
        exact Or.inr ⟨reference, child, rfl, by rw [guards, guards_eq_nil hflat]⟩
    | _ => simp [kind] at hguard
  · exact Or.inl (guards_eq_nil hguard)

/-- The guard of either node may be put around the merged core. -/
theorem MergeClosed.everywhere_guarded
    (hp : MergeClosed p) (ha : Everywhere p [a]) (hb : Everywhere p [b])
    (hnode : Everywhere p [node]) (hcore : node.kind ≠ .conditional) :
    Everywhere p [guarded (mergedGuards a b) node] := by
  have hwrap : ∀ reference child, Everywhere p [.conditional reference child] →
      Everywhere p [.conditional reference node] := fun reference child h =>
    everywhere_conditional.mpr
      ⟨hp.conditional node (everywhere_conditional.mp h).1 hcore, hnode, everywhere_nil⟩
  rcases hp.guards_cases ha with hguards | ⟨reference, child, rfl, hguards⟩
  · rcases hp.guards_cases hb with hother | ⟨reference, child, rfl, hother⟩
    · rwa [mergedGuards, hguards, hother]
    · rw [mergedGuards, hguards, hother]
      exact hwrap reference child hb
  · have hnone : b.guards.drop 1 = [] := by
      rcases hp.guards_cases hb with hother | ⟨_, _, -, hother⟩ <;> rw [hother] <;> rfl
    rw [mergedGuards, hguards, List.length_singleton, hnone]
    exact hwrap reference child ha

theorem absorb_cases (a b : Node) : absorb a b = a ∨ absorb a b = b := by
  rw [absorb]
  split_ifs <;> simp

/-- What holds everywhere in two layouts holds everywhere in their merge. -/
theorem Merges.everywhere
    {first second merged : List Node} {notes : List Warning}
    (hp : MergeClosed p) (h : Merges first second merged notes)
    (hfirst : Everywhere p first) (hsecond : Everywhere p second) :
    Everywhere p merged := by
  induction h with
  | nil => exact everywhere_nil
  | @absorb a b _ _ _ _ _ _ _ ih =>
      obtain ⟨ha, has⟩ := everywhere_cons.mp hfirst
      obtain ⟨hb, hbs⟩ := everywhere_cons.mp hsecond
      refine everywhere_cons.mpr ⟨hp.everywhere_guarded ha hb ?_ ?_, ih has hbs⟩
      · rcases absorb_cases a.core b.core with habsorb | habsorb <;> rw [habsorb]
        · exact everywhere_core ha
        · exact everywhere_core hb
      · rcases absorb_cases a.core b.core with habsorb | habsorb <;> rw [habsorb]
        · exact kind_core_ne_conditional a
        · exact kind_core_ne_conditional b
  | @element a b name _ _ _ _ inner _ _ _ _ _ hacore hbcore _ _ ihInside ih =>
      obtain ⟨ha, has⟩ := everywhere_cons.mp hfirst
      obtain ⟨hb, hbs⟩ := everywhere_cons.mp hsecond
      obtain ⟨haElement, haChildren, -⟩ := everywhere_element.mp (hacore ▸ everywhere_core ha)
      obtain ⟨hbElement, hbChildren, -⟩ := everywhere_element.mp (hbcore ▸ everywhere_core hb)
      refine everywhere_cons.mpr ⟨hp.everywhere_guarded ha hb ?_ (by simp [kind]), ih has hbs⟩
      exact everywhere_element.mpr
        ⟨hp.element inner haElement hbElement, ihInside haChildren hbChildren, everywhere_nil⟩
  | first _ _ ih =>
      obtain ⟨ha, has⟩ := everywhere_cons.mp hfirst
      exact everywhere_cons.mpr ⟨ha, ih has hsecond⟩
  | second _ _ ih =>
      obtain ⟨hb, hbs⟩ := everywhere_cons.mp hsecond
      exact everywhere_cons.mpr ⟨hb, ih hfirst hbs⟩

end MergeClosed

end Stencil.Node
