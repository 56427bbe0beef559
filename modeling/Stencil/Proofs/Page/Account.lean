import Mathlib.Data.List.Forall2
import Stencil.Proofs.Page.Findings

/-!
# The account of a projection

A projection of siblings goes through the slots and the nodes in one pass, and its findings are the
only trace that it leaves.  `Node.exists_account` says that they are complete: the pass is a list of
moves that speak of every slot and of every node exactly once and in order, each move follows a rule
that says what was read and what was found (`Node.Finds`), and the findings of the projection are
those of the moves.  So no node is skipped without a report, none is reported twice, and nothing
that does not exist is read, whatever the slots and the nodes are.

The pass stands at a position in both lists.  A move that follows a rule and passes some slots and
some nodes is put before an account of the rest (`Node.Accounts.move`).
-/

namespace Stencil

namespace Node

/-! ## Moves -/

/-- A step of a projection of siblings.  Slots and nodes are told by their positions. -/
inductive Move where
  /-- A slot that must be filled takes a node. -/
  | fill (slot node : Nat)
  /-- A slot that must be filled stays empty. -/
  | lack (slot : Nat)
  /-- A node is passed over. -/
  | surplus (node : Nat)
  /-- A conditional takes a node or none. -/
  | offer (slot : Nat) (node : Option Nat)
  /-- A loop takes any number of nodes. -/
  | repeat (slot : Nat) (nodes : List Nat)
  deriving DecidableEq, Repr

/-- The slot that a move is about. -/
def Move.slots : Move → List Nat
  | .fill slot _ | .lack slot | .offer slot _ | .repeat slot _ => [slot]
  | .surplus _ => []

/-- The nodes that a move takes or passes over. -/
def Move.nodes : Move → List Nat
  | .fill _ node | .surplus node => [node]
  | .lack _ => []
  | .offer _ node => node.toList
  | .repeat _ nodes => nodes

/-- `Finds slots nodes move found`: the move may be made, and this is what it finds.  A conditional
or a loop takes a node only if enough nodes stay for the later slots that must be filled. -/
inductive Finds (slots nodes : List Node) : Move → List Finding → Prop
  | fill {i j : Nat} {slot node : Node}
      (hslot : slots[i]? = some slot) (hnode : nodes[j]? = some node)
      (hmust : slot.isOptional = false) (haccepts : accepts slot node = true) :
      Finds slots nodes (.fill i j) (slot.project node)
  | lack {i : Nat} {slot : Node}
      (hslot : slots[i]? = some slot) (hmust : slot.isOptional = false) :
      Finds slots nodes (.lack i) [.mismatch (.lacking slot)]
  | surplus {j : Nat} {node : Node}
      (hnode : nodes[j]? = some node) :
      Finds slots nodes (.surplus j) [.mismatch (.surplus node)]
  | absent {i : Nat} {reference : String} {child : Node}
      (hslot : slots[i]? = some (.conditional reference child)) :
      Finds slots nodes (.offer i none) [.entry reference (.flag false)]
  | present {i j : Nat} {reference : String} {child node : Node}
      (hslot : slots[i]? = some (.conditional reference child)) (hnode : nodes[j]? = some node)
      (haccepts : accepts child node = true)
      (hspare : required (slots.drop (i + 1)) ≤ (nodes.drop (j + 1)).length) :
      Finds slots nodes (.offer i (some j))
        (child.project node ++ [.entry reference (.flag true)])
  | repeat {i : Nat} {js : List Nat} {reference : String} {template : Node} {taken : List Node}
      (hslot : slots[i]? = some (.loop reference template))
      (hnodes : js.map (nodes[·]?) = taken.map some)
      (haccepts : ∀ node ∈ taken, accepts template node = true)
      (hspare : ∀ j ∈ js, required (slots.drop (i + 1)) ≤ (nodes.drop (j + 1)).length) :
      Finds slots nodes (.repeat i js)
        ((taken.flatMap fun node => Finding.mismatches (template.project node)).map .mismatch ++
          [.entry reference
            (.list (taken.map fun node => Finding.record (template.project node)))])

/-! ## Accounts -/

/-- From the positions `i` and `j` on, the findings are those of moves that speak of every slot and
of every node that is left once and in order. -/
def Accounts (slots nodes : List Node) (i j : Nat) (findings : List Finding) : Prop :=
  ∃ (moves : List Move) (found : List (List Finding)),
    List.Forall₂ (Finds slots nodes) moves found ∧
      moves.flatMap Move.slots = List.range' i (slots.length - i) ∧
      moves.flatMap Move.nodes = List.range' j (nodes.length - j) ∧
      findings = found.flatten

/-- `IsRest all i rest`: the rest is what stands at the position and after it. -/
structure IsRest (all : List Node) (i : Nat) (rest : List Node) : Prop where
  drop_eq : all.drop i = rest
  le : i ≤ all.length

/-- What stands at a position, and the rest after it. -/
theorem IsRest.cons {all rest : List Node} {i : Nat} {node : Node}
    (h : IsRest all i (node :: rest)) : all[i]? = some node ∧ IsRest all (i + 1) rest := by
  have hlength := congrArg List.length h.drop_eq
  rw [List.length_drop, List.length_cons] at hlength
  refine ⟨?_, ?_, by omega⟩
  · rw [← List.head?_drop, h.drop_eq, List.head?_cons]
  · rw [← List.drop_drop, h.drop_eq, List.drop_one, List.tail_cons]

/-- The nodes at a number of positions, and the rest after them. -/
theorem IsRest.append {all taken rest : List Node} {i : Nat}
    (h : IsRest all i (taken ++ rest)) :
    (List.range' i taken.length).map (all[·]?) = taken.map some ∧
      IsRest all (i + taken.length) rest := by
  induction taken generalizing i with
  | nil => exact ⟨rfl, h⟩
  | cons node taken ih =>
      obtain ⟨hnode, hrest⟩ := h.cons
      obtain ⟨hnodes, hlater⟩ := ih hrest
      refine ⟨?_, ?_⟩
      · rw [List.length_cons, List.range'_succ, List.map_cons, List.map_cons, hnode, hnodes]
      · rwa [List.length_cons, Nat.add_comm taken.length, ← Nat.add_assoc]

section Accounts

variable {slots nodes later left : List Node} {i j : Nat} {findings : List Finding}

theorem accounts_nil (hslots : IsRest slots i []) (hnodes : IsRest nodes j []) :
    Accounts slots nodes i j [] := by
  have hnone : ∀ {all : List Node} {i : Nat}, IsRest all i [] →
      [] = List.range' i (all.length - i) := by
    intro all i h
    rw [Nat.sub_eq_zero_of_le (List.drop_eq_nil_iff.mp h.drop_eq)]
    rfl
  exact ⟨[], [], .nil, hnone hslots, hnone hnodes, rfl⟩

/-- A move that passes `k` slots and `m` nodes comes before the account of the rest. -/
theorem Accounts.move
    {move : Move} {found : List Finding} (k m : Nat)
    (hmove : Finds slots nodes move found)
    (hslots : move.slots = List.range' i k) (hnodes : move.nodes = List.range' j m)
    (hk : i + k ≤ slots.length) (hm : j + m ≤ nodes.length)
    (h : Accounts slots nodes (i + k) (j + m) findings) :
    Accounts slots nodes i j (found ++ findings) := by
  obtain ⟨moves, founds, hfinds, hslotsLeft, hnodesLeft, rfl⟩ := h
  have hpasses : ∀ {start passed total : Nat}, start + passed ≤ total →
      List.range' start passed ++ List.range' (start + passed) (total - (start + passed)) =
        List.range' start (total - start) := by
    intro start passed total hle
    rw [List.range'_append_1]
    congr 1
    omega
  refine ⟨move :: moves, found :: founds, .cons hmove hfinds, ?_, ?_, List.flatten_cons⟩
  · rw [List.flatMap_cons, hslots, hslotsLeft, hpasses hk]
  · rw [List.flatMap_cons, hnodes, hnodesLeft, hpasses hm]

/-- Nodes for which no slot is left are passed over. -/
theorem accounts_surplus (hslots : IsRest slots i []) (hleft : IsRest nodes j left) :
    Accounts slots nodes i j (projectList [] left) := by
  induction left generalizing j with
  | nil => exact accounts_nil hslots hleft
  | cons node left ih =>
      obtain ⟨hnode, hrest⟩ := hleft.cons
      exact (ih hrest).move 0 1 (.surplus hnode) rfl rfl hslots.le hrest.le

/-- A slot that must be filled takes a node after others were passed over, or stays empty. -/
theorem accounts_slot
    {slot : Node} (hslot : slot.isOptional = false)
    (ih : ∀ {j : Nat} {left : List Node}, IsRest nodes j left →
      Accounts slots nodes (i + 1) j (projectList later left))
    (hslots : IsRest slots i (slot :: later)) (hleft : IsRest nodes j left) :
    Accounts slots nodes i j (projectList (slot :: later) left) := by
  obtain ⟨hget, hlater⟩ := hslots.cons
  have hempty : ∀ {j : Nat} {left : List Node}, IsRest nodes j left →
      Accounts slots nodes i j (.mismatch (.lacking slot) :: projectList later left) :=
    fun hleft => (ih hleft).move 1 0 (.lack hget hslot) rfl rfl hlater.le hleft.le
  rw [projectList_of_not_isOptional hslot]
  induction left generalizing j with
  | nil => exact hempty hleft
  | cons node left ihLeft =>
      obtain ⟨hnode, hrest⟩ := hleft.cons
      rw [fillSlot]
      split_ifs with haccepts hlonger
      · exact (ih hrest).move 1 1 (.fill hget hnode hslot haccepts) rfl rfl hlater.le hrest.le
      · exact (ihLeft hrest).move 0 1 (.surplus hnode) rfl rfl hslots.le hrest.le
      · exact hempty hleft

/-- A conditional takes the next node or none. -/
theorem accounts_conditional
    {reference : String} {child : Node}
    (ih : ∀ {j : Nat} {left : List Node}, IsRest nodes j left →
      Accounts slots nodes (i + 1) j (projectList later left))
    (hslots : IsRest slots i (.conditional reference child :: later))
    (hleft : IsRest nodes j left) :
    Accounts slots nodes i j (projectList (.conditional reference child :: later) left) := by
  obtain ⟨hget, hlater⟩ := hslots.cons
  have hnone : Accounts slots nodes i j
      (.entry reference (.flag false) :: projectList later left) :=
    (ih hleft).move 1 0 (.absent hget) rfl rfl hlater.le hleft.le
  rw [projectList]
  cases left with
  | nil => exact hnone
  | cons node left =>
      obtain ⟨hnode, hrest⟩ := hleft.cons
      rw [fillConditional]
      split_ifs with htaken
      · rw [Bool.and_eq_true, decide_eq_true_eq, ← hlater.drop_eq, ← hrest.drop_eq] at htaken
        have hmove := (ih hrest).move 1 1 (.present hget hnode htaken.2 htaken.1) rfl rfl
          hlater.le hrest.le
        rwa [List.append_assoc] at hmove
      · exact hnone

/-- Where a loop takes nodes, enough nodes stay after each of them. -/
theorem required_le_of_mem_takeRepetitions
    {template : Node} {needed k : Nat} {nodes : List Node}
    (hk : k < (takeRepetitions template needed nodes).1.length) :
    needed ≤ (nodes.drop (k + 1)).length := by
  induction nodes generalizing k with
  | nil => simp [takeRepetitions] at hk
  | cons node nodes ih =>
      rw [takeRepetitions] at hk
      split_ifs at hk with htaken
      · cases k with
        | zero => simpa using (Bool.and_eq_true_iff.mp htaken).1
        | succ k => exact ih (Nat.lt_of_succ_lt_succ hk)
      · simp at hk

/-- A loop takes the next nodes, as many as fit. -/
theorem accounts_loop
    {reference : String} {template : Node}
    (ih : ∀ {j : Nat} {left : List Node}, IsRest nodes j left →
      Accounts slots nodes (i + 1) j (projectList later left))
    (hslots : IsRest slots i (.loop reference template :: later))
    (hleft : IsRest nodes j left) :
    Accounts slots nodes i j (projectList (.loop reference template :: later) left) := by
  obtain ⟨hget, hlater⟩ := hslots.cons
  have hdivided := takeRepetitions_append template (required later) left
  obtain ⟨hnodes, hrest⟩ := IsRest.append (hdivided ▸ hleft)
  have hspare : ∀ position ∈
      List.range' j (takeRepetitions template (required later) left).1.length,
      required (slots.drop (i + 1)) ≤ (nodes.drop (position + 1)).length := by
    intro position hposition
    obtain ⟨k, hk, rfl⟩ := List.mem_range'.mp hposition
    rw [hlater.drop_eq, Nat.one_mul, Nat.add_assoc, ← List.drop_drop, hleft.drop_eq]
    exact required_le_of_mem_takeRepetitions hk
  have hmove := (ih hrest).move 1 _
    (.repeat hget hnodes accepts_of_mem_takeRepetitions hspare) rfl rfl hlater.le hrest.le
  rw [projectList, fillLoop]
  simpa [List.flatMap_map, List.map_flatMap, Function.comp_def] using hmove

/-- From every position on, a projection is accounted for. -/
theorem accounts_projectList (hslots : IsRest slots i later) (hleft : IsRest nodes j left) :
    Accounts slots nodes i j (projectList later left) := by
  induction later generalizing i j left with
  | nil => exact accounts_surplus hslots hleft
  | cons slot later ih =>
      have hrest : ∀ {j : Nat} {left : List Node}, IsRest nodes j left →
          Accounts slots nodes (i + 1) j (projectList later left) := ih hslots.cons.2
      cases slot with
      | conditional reference child => exact accounts_conditional hrest hslots hleft
      | loop reference template => exact accounts_loop hrest hslots hleft
      | doctype _ | element _ _ _ | text _ | comment _ | var _ | content | markdown _ =>
          exact accounts_slot rfl hrest hslots hleft

end Accounts

/-- A projection accounts for everything: it is a list of moves made by the rules, which speak of
every slot and of every node exactly once and in order and of nothing else, and what it finds is
what the moves find. -/
theorem exists_account (slots nodes : List Node) :
    ∃ (moves : List Move) (found : List (List Finding)),
      List.Forall₂ (Finds slots nodes) moves found ∧
        moves.flatMap Move.slots = List.range slots.length ∧
        moves.flatMap Move.nodes = List.range nodes.length ∧
        projectList slots nodes = found.flatten := by
  have haccounts : Accounts slots nodes 0 0 (projectList slots nodes) :=
    accounts_projectList ⟨rfl, Nat.zero_le _⟩ ⟨rfl, Nat.zero_le _⟩
  simpa only [Accounts, Nat.sub_zero, ← List.range_eq_range'] using haccounts

end Node

end Stencil
