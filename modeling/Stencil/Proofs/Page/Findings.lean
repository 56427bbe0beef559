import Stencil.Proofs.Page.Projection
import Stencil.Proofs.Record

/-!
# Findings of a projection

What a projection finds for a list of slots: at most one value for every occurrence of a reference
among the slots (`Node.references_projectList_nodup`), and, if there is no mismatch, an account of
which slot took which node (`Node.projectList_slot_of_fits` and the statements after it).
-/

namespace Stencil

namespace Finding

/-! ## Values and mismatches -/

section

variable (findings more : List Finding) (reference : String) (value : Value) (found : Mismatch)

@[simp] theorem entries_append : entries (findings ++ more) = entries findings ++ entries more :=
  List.filterMap_append

@[simp] theorem entries_entry :
    entries (.entry reference value :: findings) = (reference, value) :: entries findings :=
  rfl

@[simp] theorem entries_map_mismatch (mismatches : List Mismatch) :
    entries (mismatches.map .mismatch) = [] := by
  simp [entries]

@[simp] theorem mismatches_append :
    mismatches (findings ++ more) = mismatches findings ++ mismatches more :=
  List.filterMap_append

@[simp] theorem mismatches_entry :
    mismatches (.entry reference value :: findings) = mismatches findings :=
  rfl

@[simp] theorem mismatches_mismatch :
    mismatches (.mismatch found :: findings) = found :: mismatches findings :=
  rfl

@[simp] theorem mismatches_map_mismatch (all : List Mismatch) :
    mismatches (all.map .mismatch) = all := by
  simp [mismatches, List.filterMap_map]

/-- The references for which a value was found. -/
def references : List String :=
  (entries findings).map Prod.fst

@[simp] theorem references_append :
    references (findings ++ more) = references findings ++ references more := by
  simp [references]

@[simp] theorem references_entry :
    references (.entry reference value :: findings) = reference :: references findings :=
  rfl

end

end Finding

theorem Attribute.references_project_sublist
    (element : String) (attrs concrete : List Attribute) :
    (Finding.references (project element attrs concrete)).Sublist (references attrs) := by
  induction attrs with
  | nil => exact List.Sublist.refl _
  | cons attr attrs ih =>
      obtain ⟨name, value⟩ := attr
      cases value with
      | literal value => exact ih
      | var reference =>
          rw [project, List.filterMap_cons]
          cases lastLiteral? concrete name with
          | none => exact ih.cons reference
          | some value => exact ih.cons_cons reference
      | conditional reference =>
          rw [project, List.filterMap_cons]
          cases lastLiteral? concrete name with
          | none => exact ih.cons_cons reference
          | some value => exact ih.cons_cons reference

namespace Node

/-! ## One value for every occurrence -/

theorem project_of_isOptional {slot : Node} (h : slot.isOptional = true) (node : Node) :
    slot.project node = [] := by
  cases slot <;> simp_all [isOptional, project]

theorem projectList_singleton
    {slot node : Node} (hslot : slot.isOptional = false) (haccepts : accepts slot node = true) :
    projectList [slot] [node] = slot.project node := by
  rw [projectList_cons_of_accepts hslot haccepts]
  exact List.append_nil _

section Count

variable {reference : String} {project : Node → List Finding} {next : List Node → List Finding}
  {inside after : Nat}

theorem count_references_fillSlot
    {slot : Node} (later : Nat) (nodes : List Node)
    (hproject : ∀ node, accepts slot node = true →
      (Finding.references (project node)).count reference ≤ inside)
    (hnext : ∀ nodes, (Finding.references (next nodes)).count reference ≤ after) :
    (Finding.references (fillSlot slot project later next nodes)).count reference ≤
      inside + after := by
  induction nodes with
  | nil => exact Nat.le_trans (hnext []) (Nat.le_add_left _ _)
  | cons node nodes ih =>
      rw [fillSlot]
      split_ifs with haccepts _
      · rw [Finding.references_append, List.count_append]
        exact Nat.add_le_add (hproject node haccepts) (hnext nodes)
      · exact ih
      · exact Nat.le_trans (hnext (node :: nodes)) (Nat.le_add_left _ _)

theorem count_references_fillConditional
    {child : Node} (guard : String) (needed : Nat) (nodes : List Node)
    (hproject : ∀ node, accepts child node = true →
      (Finding.references (project node)).count reference ≤ inside)
    (hnext : ∀ nodes, (Finding.references (next nodes)).count reference ≤ after) :
    (Finding.references (fillConditional guard child project needed next nodes)).count reference ≤
      [guard].count reference + inside + after := by
  have hskipped : ∀ nodes,
      (Finding.references (.entry guard (.flag false) :: next nodes)).count reference ≤
        [guard].count reference + inside + after := by
    intro nodes
    have := hnext nodes
    rw [Finding.references_entry, ← List.singleton_append, List.count_append]
    omega
  cases nodes with
  | nil => exact hskipped []
  | cons node nodes =>
      rw [fillConditional]
      split_ifs with htaken
      · have hinside := hproject node (Bool.and_eq_true_iff.mp htaken).2
        have hafter := hnext nodes
        rw [Finding.references_append, Finding.references_entry, ← List.singleton_append,
          List.count_append, List.count_append]
        omega
      · exact hskipped (node :: nodes)

theorem count_references_fillLoop
    {template : Node} (list : String) (needed : Nat) (nodes : List Node)
    (hnext : ∀ nodes, (Finding.references (next nodes)).count reference ≤ after) :
    (Finding.references (fillLoop list template project needed next nodes)).count reference ≤
      [list].count reference + after := by
  rw [fillLoop]
  simp only [Finding.references_append, Finding.references_entry]
  have hinside : Finding.references (((takeRepetitions template needed nodes).1.map project).flatMap
      fun findings => (Finding.mismatches findings).map .mismatch) = [] := by
    rw [← List.map_flatMap, Finding.references, Finding.entries_map_mismatch]
    rfl
  rw [hinside, List.nil_append, ← List.singleton_append, List.count_append]
  exact Nat.add_le_add_left (hnext _) _

end Count

theorem count_references_projectList_slot
    {slot : Node} {slots : List Node} {reference : String}
    (hslot : slot.isOptional = false)
    (hproject : ∀ node, accepts slot node = true →
      (Finding.references (slot.project node)).count reference ≤ slot.references.count reference)
    (hrest : ∀ nodes, (Finding.references (projectList slots nodes)).count reference ≤
      (referencesList slots).count reference)
    (nodes : List Node) :
    (Finding.references (projectList (slot :: slots) nodes)).count reference ≤
      (referencesList (slot :: slots)).count reference := by
  rw [projectList_of_not_isOptional hslot, referencesList, List.count_append]
  exact count_references_fillSlot _ nodes hproject hrest

/-- Every occurrence of a reference among the slots gives at most one value. -/
theorem count_references_projectList (reference : String) (slots nodes : List Node) :
    (Finding.references (projectList slots nodes)).count reference ≤
      (referencesList slots).count reference := by
  induction slots using Node.inductionOn generalizing nodes with
  | nil =>
      rw [projectList, ← Function.comp_def Finding.mismatch, ← List.map_map, Finding.references,
        Finding.entries_map_mismatch]
      exact Nat.zero_le _
  | doctype value slots ih | text value slots ih | comment value slots ih | content slots ih =>
      refine count_references_projectList_slot rfl (fun node _ => ?_) ih nodes
      cases node <;> exact Nat.zero_le _
  | var name slots ih | markdown name slots ih =>
      refine count_references_projectList_slot rfl (fun node _ => ?_) ih nodes
      cases node <;> first | exact Nat.le_refl _ | exact Nat.zero_le _
  | element name attrs children slots ihChildren ih =>
      refine count_references_projectList_slot rfl (fun node _ => ?_) ih nodes
      cases node with
      | element _ concrete inner =>
          have hattrs :=
            (Attribute.references_project_sublist name attrs concrete).count_le reference
          rw [project, references, Finding.references_append, List.count_append, List.count_append]
          exact Nat.add_le_add hattrs (ihChildren inner)
      | _ => exact Nat.zero_le _
  | conditional guard child slots ihChild ih =>
      have hinside : ∀ node, accepts child node = true →
          (Finding.references (child.project node)).count reference ≤
            child.references.count reference := by
        intro node haccepts
        cases hchild : child.isOptional with
        | true =>
            rw [project_of_isOptional hchild]
            exact Nat.zero_le _
        | false =>
            have h := ihChild [node]
            rwa [projectList_singleton hchild haccepts, referencesList, referencesList,
              List.append_nil] at h
      rw [projectList, referencesList, references, ← List.singleton_append, List.count_append,
        List.count_append]
      exact count_references_fillConditional guard _ nodes hinside ih
  | loop list template slots _ ih =>
      rw [projectList, referencesList, references, List.count_append]
      exact count_references_fillLoop list _ nodes ih

/-- Distinct references get at most one value each. -/
theorem references_projectList_nodup
    {slots : List Node} (hdistinct : (referencesList slots).Nodup) (nodes : List Node) :
    (Finding.references (projectList slots nodes)).Nodup := by
  apply List.nodup_iff_count_le_one.mpr
  intro reference
  exact Nat.le_trans (count_references_projectList reference slots nodes)
    (List.nodup_iff_count_le_one.mp hdistinct reference)

/-! ## Slots without a mismatch -/

/-- `Takes slot node`: the slot can take the node of a document. -/
inductive Takes : Node → Node → Prop
  | doctype (value : String) : Takes (.doctype value) (.doctype value)
  | text (value : String) : Takes (.text value) (.text value)
  | comment (value other : String) : Takes (.comment value) (.comment other)
  | content : Takes .content .content
  | var (reference value : String) : Takes (.var reference) (.text value)
  | markdown (reference value : String) : Takes (.markdown reference) (.text value)
  | element (name : String) (attrs concrete : List Attribute) (slots children : List Node) :
      Takes (.element name attrs slots) (.element name concrete children)

/-- What a slot other than a conditional accepts in a document.  A loop, below a conditional or as
a template, accepts nothing. -/
theorem takes_of_accepts
    {slot node : Node} (hguard : slot.kind ≠ .conditional) (hplain : node.IsPlain)
    (haccepts : accepts slot node = true) :
    Takes slot node := by
  cases slot <;> cases node <;>
    simp_all only [accepts, equivalent, core, sameSlot, kind, IsPlain, beq_iff_eq, Bool.or_eq_true,
      Bool.and_eq_true, reduceCtorEq, and_false, or_false, false_or, ne_eq, not_true_eq_false,
      and_true, or_self]
  all_goals constructor

theorem Takes.isOptional_eq_false {slot node : Node} (h : Takes slot node) :
    slot.isOptional = false := by
  cases h <;> rfl

/-- A slot that must be filled takes the next node. -/
theorem projectList_slot_of_fits
    {slot : Node} {slots nodes : List Node}
    (hslot : slot.isOptional = false)
    (hfits : Finding.mismatches (projectList (slot :: slots) nodes) = []) :
    ∃ node rest, nodes = node :: rest ∧ accepts slot node = true ∧
      projectList (slot :: slots) nodes = slot.project node ++ projectList slots rest := by
  rw [projectList_of_not_isOptional hslot] at hfits ⊢
  cases nodes with
  | nil => simp [fillSlot] at hfits
  | cons node rest =>
      rw [fillSlot] at hfits ⊢
      split_ifs at hfits ⊢ with haccepts
      · exact ⟨node, rest, rfl, haccepts, rfl⟩
      all_goals simp at hfits

/-- A conditional takes the next node or nothing. -/
theorem projectList_conditional_cases
    (reference : String) (child : Node) (slots nodes : List Node) :
    projectList (.conditional reference child :: slots) nodes =
        .entry reference (.flag false) :: projectList slots nodes ∨
      ∃ node rest, nodes = node :: rest ∧ accepts child node = true ∧
        projectList (.conditional reference child :: slots) nodes =
          child.project node ++ .entry reference (.flag true) :: projectList slots rest := by
  rw [projectList]
  cases nodes with
  | nil => exact Or.inl rfl
  | cons node rest =>
      rw [fillConditional]
      split_ifs with htaken
      · exact Or.inr ⟨node, rest, rfl, (Bool.and_eq_true_iff.mp htaken).2, rfl⟩
      · exact Or.inl rfl

/-- The repetitions of a loop are the first nodes. -/
theorem takeRepetitions_append (template : Node) (needed : Nat) (nodes : List Node) :
    (takeRepetitions template needed nodes).1 ++ (takeRepetitions template needed nodes).2 =
      nodes := by
  induction nodes with
  | nil => rfl
  | cons node nodes ih =>
      rw [takeRepetitions]
      split_ifs
      · exact congrArg (node :: ·) ih
      · rfl

theorem accepts_of_mem_takeRepetitions
    {template : Node} {needed : Nat} {nodes : List Node} :
    ∀ node ∈ (takeRepetitions template needed nodes).1, accepts template node = true := by
  induction nodes with
  | nil => simp [takeRepetitions]
  | cons node nodes ih =>
      rw [takeRepetitions]
      split_ifs with htaken
      · rintro other (_ | ⟨_, hother⟩)
        · exact (Bool.and_eq_true_iff.mp htaken).2
        · exact ih other hother
      · simp

/-- A loop takes the first nodes, and each of them fits its template. -/
theorem projectList_loop_of_fits
    {reference : String} {template : Node} {slots nodes : List Node}
    (hfits : Finding.mismatches (projectList (.loop reference template :: slots) nodes) = []) :
    ∃ taken rest, nodes = taken ++ rest ∧
      (∀ node ∈ taken, accepts template node = true ∧
        Finding.mismatches (template.project node) = []) ∧
      projectList (.loop reference template :: slots) nodes =
        .entry reference (.list (taken.map fun node => Finding.record (template.project node))) ::
          projectList slots rest := by
  rw [projectList, fillLoop] at hfits ⊢
  simp only [Finding.mismatches_append, Finding.mismatches_entry, ← List.map_flatMap,
    Finding.mismatches_map_mismatch, List.append_eq_nil_iff, List.flatMap_eq_nil_iff] at hfits
  refine ⟨(takeRepetitions template (required slots) nodes).1,
    (takeRepetitions template (required slots) nodes).2,
    (takeRepetitions_append _ _ _).symm, ?_, ?_⟩
  · intro node hnode
    exact ⟨accepts_of_mem_takeRepetitions node hnode,
      hfits.1 _ (List.mem_map_of_mem hnode)⟩
  · simp only [← List.map_flatMap, List.flatMap_eq_nil_iff.mpr hfits.1, List.map_map]
    rfl

end Node

/-! ## Stored values -/

/-- If the source supplies every reference of the layout, no stored value is used. -/
theorem Page.project_of_complete
    {page : Page} {layout : Layout}
    (hcomplete : ∀ reference ∈ layout.references,
      reference ∈ Finding.references (page.findings layout)) :
    page.project layout = { page with data := Finding.record (page.findings layout) } := by
  have hstored : ∀ entry ∈ page.storedEntries layout,
      (Finding.record (page.findings layout)).contains entry.1 = true := by
    rintro entry hentry
    obtain ⟨reference, hreference, hvalue⟩ := List.mem_filterMap.mp hentry
    obtain ⟨value, -, rfl⟩ := Option.map_eq_some_iff.mp hvalue
    exact Record.contains_ofEntries_iff.mpr (hcomplete reference hreference)
  rw [project, Record.fill_eq_self hstored]

end Stencil
