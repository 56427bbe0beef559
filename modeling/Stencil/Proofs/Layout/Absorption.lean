import Stencil.Proofs.Attribute.Reconciliation
import Stencil.Proofs.Layout.Merge
import Stencil.Proofs.Page.Filling

/-!
# Merging a layout in again

A merge has taken in both of its layouts: merging either of them in once more gives the same layout,
slot by slot, and warns only about the attributes of that layout that were lost before
(`align_absorbs`).  The second pass has another list on one side, but it retraces the first one: a
merged slot shares with both of the slots it was merged from (`sameSlot_absorb_right`,
`sameSlot_absorb_left`), and the merged list is never the shorter one (`Merges.length_le`), so that
it is the one to give up a head where the other layout has no counterpart.
-/

namespace Stencil

namespace Node

/-! ## Guards and slots of a merged node -/

section Slots

variable {a b node : Node}

theorem guards_guarded (references : List String) (node : Node) :
    (guarded references node).guards = references ++ node.guards := by
  induction references with
  | nil => rfl
  | cons reference references ih => exact congrArg (reference :: ·) ih

/-- The guards and the core of a node that is put into guards. -/
theorem guarded_parts (references : List String) (hkind : node.kind ≠ .conditional) :
    (guarded references node).guards = references ∧ (guarded references node).core = node := by
  rw [guards_guarded, guards_eq_nil hkind, List.append_nil, core_guarded, core_eq_self hkind]
  exact ⟨rfl, rfl⟩

/-- A merged node has all the guards that the second node can add. -/
theorem mergedGuards_right (hguards : node.guards = mergedGuards a b) :
    mergedGuards node b = node.guards := by
  have hlength : b.guards.length ≤ node.guards.length := by
    rw [hguards, mergedGuards, List.length_append, List.length_drop]
    omega
  rw [mergedGuards, List.drop_eq_nil_of_le hlength, List.append_nil]

/-- A merged node adds to the guards of the first node what the second has added. -/
theorem mergedGuards_left (hguards : node.guards = mergedGuards a b) :
    mergedGuards a node = node.guards := by
  rw [mergedGuards, hguards, mergedGuards, List.drop_left]

theorem mergedGuards_self (node : Node) : mergedGuards node node = node.guards := by
  rw [mergedGuards, List.drop_length, List.append_nil]

theorem absorb_self (node : Node) : absorb node node = node := by
  simp [absorb]

theorem absorb_absorb_right (a b : Node) : absorb (absorb a b) b = absorb a b := by
  rcases absorb_cases a b with habsorb | habsorb <;> rw [habsorb]
  · exact habsorb
  · exact absorb_self b

theorem absorb_absorb_left (a b : Node) : absorb a (absorb a b) = absorb a b := by
  rcases absorb_cases a b with habsorb | habsorb <;> rw [habsorb]
  · exact absorb_self a
  · exact habsorb

/-- What two nodes are merged into shares a slot with the second. -/
theorem sameSlot_absorb_right (hshare : equivalent a b = true) :
    sameSlot (absorb a.core b.core) b.core = true := by
  rcases absorb_cases a.core b.core with habsorb | habsorb <;> rw [habsorb]
  · exact hshare
  · exact equivalent_refl b

/-- What two nodes are merged into shares a slot with the first. -/
theorem sameSlot_absorb_left (hshare : equivalent a b = true) :
    sameSlot a.core (absorb a.core b.core) = true := by
  rcases absorb_cases a.core b.core with habsorb | habsorb <;> rw [habsorb]
  · exact equivalent_refl a
  · exact hshare

end Slots

/-! ## Merging a layout with itself -/

section Itself

variable {node : Node} {first second merged nodes : List Node} {notes : List Warning}

/-- What is below a node with distinct attribute names. -/
theorem distinctNames_of_core
    {name : String} {attrs : List Attribute} {children : List Node}
    (h : Everywhere DistinctNames [node]) (hcore : node.core = .element name attrs children) :
    (attrs.map Attribute.name).Nodup ∧ Everywhere DistinctNames children := by
  obtain ⟨hattrs, hchildren, -⟩ := everywhere_element.mp (hcore ▸ everywhere_core h)
  exact ⟨hattrs, hchildren⟩

/-- A node that heads both lists is merged with itself if what is below it is. -/
theorem Merges.cons_of_below
    (hbelow : ∀ name attrs children, node.core = .element name attrs children →
      (attrs.map Attribute.name).Nodup ∧ Merges children children children [])
    (h : Merges first second merged notes) :
    Merges (node :: first) (node :: second) (node :: merged) notes := by
  have hguarded := guarded_core node
  rw [← mergedGuards_self] at hguarded
  by_cases hleaf : node.core.kind ≠ .element
  · have hmerges := Merges.absorb (equivalent_refl node) hleaf h
    rwa [absorb_self, hguarded] at hmerges
  · obtain ⟨name, attrs, children, hcore⟩ := exists_eq_element (not_not.mp hleaf)
    obtain ⟨hattrs, hinside⟩ := hbelow name attrs children hcore
    have hmerges := Merges.element hcore hcore hinside h
    rwa [Attribute.reconcile_self hattrs, ← hcore, hguarded] at hmerges

/-- Merging a layout with itself changes nothing. -/
theorem merges_self (h : Everywhere DistinctNames nodes) : Merges nodes nodes nodes [] := by
  induction nodes using inductionOnCores with
  | nil => exact .nil
  | cons node nodes ihBelow ih =>
      obtain ⟨hnode, hnodes⟩ := everywhere_cons.mp h
      refine (ih hnodes).cons_of_below ?_
      intro name attrs children hcore
      obtain ⟨hattrs, hchildren⟩ := distinctNames_of_core hnode hcore
      exact ⟨hattrs, ihBelow name attrs children hcore hchildren⟩

/-- A node that heads both lists is merged with itself. -/
theorem Merges.cons_self
    (hnode : Everywhere DistinctNames [node]) (h : Merges first second merged notes) :
    Merges (node :: first) (node :: second) (node :: merged) notes := by
  apply h.cons_of_below
  intro name attrs children hcore
  obtain ⟨hattrs, hchildren⟩ := distinctNames_of_core hnode hcore
  exact ⟨hattrs, merges_self hchildren⟩

end Itself

/-! ## Merging either layout in again -/

section Again

variable {a b node : Node} {first second merged rest : List Node} {notes : List Warning}

theorem kind_absorb_core (a b : Node) : (absorb a.core b.core).kind ≠ .conditional := by
  rcases absorb_cases a.core b.core with habsorb | habsorb <;> rw [habsorb]
  · exact kind_core_ne_conditional a
  · exact kind_core_ne_conditional b

theorem kind_absorb_ne_element (hshare : equivalent a b = true) (hleaf : a.core.kind ≠ .element) :
    (absorb a.core b.core).kind ≠ .element := by
  rcases absorb_cases a.core b.core with habsorb | habsorb <;> rw [habsorb]
  · exact hleaf
  · intro helement
    obtain ⟨_, _, _, hb⟩ := exists_eq_element helement
    rw [equivalent_comm] at hshare
    obtain ⟨_, _, ha⟩ := core_eq_element_of_equivalent hshare hb
    exact hleaf (by rw [ha, kind])

section Pair

variable (hguards : node.guards = mergedGuards a b)

include hguards

/-- What two nodes without children were merged into takes in the second once more. -/
theorem Merges.absorb_right
    (h : Merges merged second rest notes) (hcore : node.core = Node.absorb a.core b.core)
    (hshare : equivalent a b = true) (hleaf : a.core.kind ≠ .element) :
    Merges (node :: merged) (b :: second) (node :: rest) notes := by
  have hshareAgain : equivalent node b = true := by
    rw [equivalent, hcore]
    exact sameSlot_absorb_right hshare
  have hleafAgain : node.core.kind ≠ .element := by
    rw [hcore]
    exact kind_absorb_ne_element hshare hleaf
  have hagain := Merges.absorb hshareAgain hleafAgain h
  rwa [mergedGuards_right hguards, hcore, absorb_absorb_right, ← hcore, guarded_core] at hagain

/-- What two nodes without children were merged into is taken in once more by the first. -/
theorem Merges.absorb_left
    (h : Merges first merged rest notes) (hcore : node.core = Node.absorb a.core b.core)
    (hshare : equivalent a b = true) (hleaf : a.core.kind ≠ .element) :
    Merges (a :: first) (node :: merged) (node :: rest) notes := by
  have hshareAgain : equivalent a node = true := by
    rw [equivalent, hcore]
    exact sameSlot_absorb_left hshare
  have hagain := Merges.absorb hshareAgain hleaf h
  rwa [mergedGuards_left hguards, hcore, absorb_absorb_left, ← hcore, guarded_core] at hagain

variable {name : String} {attrs otherAttrs : List Attribute}
  {children otherChildren inner : List Node} {innerNotes : List Warning}

/-- What two elements were merged into takes in the second once more. -/
theorem Merges.element_right
    (h : Merges merged second rest notes)
    (hcore : node.core = .element name (Attribute.reconcile name attrs otherAttrs).value inner)
    (hb : b.core = .element name otherAttrs otherChildren)
    (hattrs : (attrs.map Attribute.name).Nodup) (hother : (otherAttrs.map Attribute.name).Nodup)
    (hinside : Merges inner otherChildren inner innerNotes) :
    Merges (node :: merged) (b :: second) (node :: rest)
      ((Attribute.reconcile name attrs otherAttrs).notes.filter (·.isAbout .second) ++
        innerNotes ++ notes) := by
  have hagain := Merges.element hcore hb hinside h
  rwa [Attribute.reconcile_right hattrs hother, mergedGuards_right hguards, ← hcore,
    guarded_core] at hagain

/-- What two elements were merged into is taken in once more by the first. -/
theorem Merges.element_left
    (h : Merges first merged rest notes)
    (hcore : node.core = .element name (Attribute.reconcile name attrs otherAttrs).value inner)
    (ha : a.core = .element name attrs children)
    (hattrs : (attrs.map Attribute.name).Nodup) (hother : (otherAttrs.map Attribute.name).Nodup)
    (hinside : Merges children inner inner innerNotes) :
    Merges (a :: first) (node :: merged) (node :: rest)
      ((Attribute.reconcile name attrs otherAttrs).notes.filter (·.isAbout .first) ++
        innerNotes ++ notes) := by
  have hagain := Merges.element ha hcore hinside h
  rwa [Attribute.reconcile_left hattrs hother, mergedGuards_left hguards, ← hcore,
    guarded_core] at hagain

end Pair

/-- Either layout is taken in once more: its own slots are merged with themselves, a merged slot
takes in either of its parts, and a slot of the other layout is met with no counterpart, as it was
before. -/
theorem Merges.again
    (h : Merges first second merged notes)
    (hfirst : Everywhere DistinctNames first) (hsecond : Everywhere DistinctNames second) :
    Merges merged second merged (notes.filter (·.isAbout .second)) ∧
      Merges first merged merged (notes.filter (·.isAbout .first)) := by
  induction h with
  | nil => exact ⟨.nil, .nil⟩
  | @absorb a b _ _ _ _ hshare hleaf _ ih =>
      obtain ⟨ihSecond, ihFirst⟩ := ih (everywhere_cons.mp hfirst).2 (everywhere_cons.mp hsecond).2
      obtain ⟨hguards, hcore⟩ := guarded_parts (mergedGuards a b) (kind_absorb_core a b)
      exact ⟨ihSecond.absorb_right hguards hcore hshare hleaf,
        ihFirst.absorb_left hguards hcore hshare hleaf⟩
  | @element a b name attrs otherAttrs _ _ inner _ _ _ _ _ ha hb _ _ ihInside ih =>
      obtain ⟨hnode, hnodes⟩ := everywhere_cons.mp hfirst
      obtain ⟨hother, hothers⟩ := everywhere_cons.mp hsecond
      obtain ⟨hattrs, hchildren⟩ := distinctNames_of_core hnode ha
      obtain ⟨hotherAttrs, hotherChildren⟩ := distinctNames_of_core hother hb
      obtain ⟨ihInsideSecond, ihInsideFirst⟩ := ihInside hchildren hotherChildren
      obtain ⟨ihSecond, ihFirst⟩ := ih hnodes hothers
      obtain ⟨hguards, hcore⟩ := @guarded_parts
        (.element name (Attribute.reconcile name attrs otherAttrs).value inner) (mergedGuards a b)
        (by simp [kind])
      simp only [List.filter_append]
      exact ⟨ihSecond.element_right hguards hcore hb hattrs hotherAttrs ihInsideSecond,
        ihFirst.element_left hguards hcore ha hattrs hotherAttrs ihInsideFirst⟩
  | first hlone hrest ih =>
      obtain ⟨hnode, hnodes⟩ := everywhere_cons.mp hfirst
      obtain ⟨ihSecond, ihFirst⟩ := ih hnodes hsecond
      refine ⟨.first ?_ ihSecond, ihFirst.cons_self hnode⟩
      exact fun b hb => ⟨(hlone b hb).1, hrest.length_le.2⟩
  | second hlone hrest ih =>
      obtain ⟨hnode, hnodes⟩ := everywhere_cons.mp hsecond
      obtain ⟨ihSecond, ihFirst⟩ := ih hfirst hnodes
      refine ⟨ihSecond.cons_self hnode, .second ?_ ihFirst⟩
      exact fun a ha => ⟨(hlone a ha).1, Nat.le_succ_of_le hrest.length_le.1⟩

end Again

/-- Merging is absorbing: a merged layout takes in either of its parts once more without a change,
and warns only about the attributes of that part that were lost before. -/
theorem align_absorbs
    (first second : List Node)
    (hfirst : Everywhere DistinctNames first) (hsecond : Everywhere DistinctNames second) :
    align (align first second).value second =
        { value := (align first second).value
          notes := (align first second).notes.filter (·.isAbout .second) } ∧
      align first (align first second).value =
        { value := (align first second).value
          notes := (align first second).notes.filter (·.isAbout .first) } := by
  obtain ⟨hsecondAgain, hfirstAgain⟩ := (merges_align first second).again hfirst hsecond
  exact ⟨hsecondAgain.eq_alignFrom {}, hfirstAgain.eq_alignFrom {}⟩

/-- A guarded paragraph takes in one whose class varies; each loses an attribute of its own. -/
theorem align_absorbs_of_paragraphs :
    let first : List Node :=
      [.conditional "show1" (.element "p" [.static "class" "a", .static "id" "x"] [.text "one"]),
        .text "two"]
    let second : List Node :=
      [.element "em" [] [],
        .element "p" [⟨"class", .var "attr1"⟩, .static "lang" "en"] [.var "var1", .comment "end"],
        .var "var2"]
    let merged : List Node :=
      [.element "em" [] [],
        .conditional "show1"
          (.element "p" [⟨"class", .var "attr1"⟩] [.var "var1", .comment "end"]),
        .var "var2"]
    Everywhere DistinctNames first ∧ Everywhere DistinctNames second ∧
      align first second = ⟨merged, [.unresolvedAttribute "p" "id" .first,
        .unresolvedAttribute "p" "lang" .second]⟩ ∧
      align merged second = ⟨merged, [.unresolvedAttribute "p" "lang" .second]⟩ ∧
      align first merged = ⟨merged, [.unresolvedAttribute "p" "id" .first]⟩ := by
  intro first second merged
  have hfirst : Everywhere DistinctNames first := by decide
  have hsecond : Everywhere DistinctNames second := by decide
  have hmerged : align first second = ⟨merged, [.unresolvedAttribute "p" "id" .first,
      .unresolvedAttribute "p" "lang" .second]⟩ := by rfl
  have habsorbs := align_absorbs first second hfirst hsecond
  rw [hmerged] at habsorbs
  exact ⟨hfirst, hsecond, hmerged, habsorbs⟩

end Node

end Stencil
