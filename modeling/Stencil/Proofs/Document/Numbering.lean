import Mathlib.Algebra.GroupWithZero.Nat
import Stencil.Proofs.Document.References

/-!
# Numbers in document order

Nodes, texts and attributes are numbered from one in document order.  The place of a node is told by
what comes before it: `Ordinals.total` counts a part of the listing of a tree, and the numbers of
the node, of its text and of its attributes follow on from there.  Conversely a number belongs to
one place only (`Node.eq_of_number`).
-/

namespace Stencil

/-! ## Texts and attributes in document order -/

namespace Node

/-- The texts of a tree in document order. -/
def texts (nodes : List Node) : List String :=
  (preorderList nodes).filterMap fun
    | .text value => some value
    | _ => none

/-- The attributes of all elements of a tree in document order. -/
def attributes (nodes : List Node) : List Attribute :=
  (preorderList nodes).flatMap fun
    | .element _ attrs _ => attrs
    | _ => []

theorem mem_attributes
    {name : String} {attrs : List Attribute} {children nodes : List Node} {attr : Attribute}
    (hnode : .element name attrs children ∈ preorderList nodes) (hattr : attr ∈ attrs) :
    attr ∈ attributes nodes :=
  List.mem_flatMap.mpr ⟨_, hnode, hattr⟩

theorem texts_cons (node : Node) (nodes : List Node) :
    texts (node :: nodes) = texts [node] ++ texts nodes := by
  simp [texts, preorderList]

theorem attributes_cons (node : Node) (nodes : List Node) :
    attributes (node :: nodes) = attributes [node] ++ attributes nodes := by
  simp [attributes, preorderList]

@[simp] theorem texts_text (value : String) (nodes : List Node) :
    texts (.text value :: nodes) = value :: texts nodes :=
  rfl

@[simp] theorem texts_element
    (name : String) (attrs : List Attribute) (children nodes : List Node) :
    texts (.element name attrs children :: nodes) = texts children ++ texts nodes := by
  simp [texts, preorderList, preorder]

@[simp] theorem attributes_element
    (name : String) (attrs : List Attribute) (children nodes : List Node) :
    attributes (.element name attrs children :: nodes) =
      attrs ++ (attributes children ++ attributes nodes) := by
  simp [attributes, preorderList, preorder]

end Node

/-! ## Numbered items -/

/-- `Numbered n as m a`: counted on from `n`, the item `a` has number `m`. -/
def Numbered (n : Nat) (as : List α) (m : Nat) (a : α) : Prop :=
  ∃ i, m = n + i + 1 ∧ as[i]? = some a

section Numbered

variable {n m : Nat} {a b : α} {as bs : List α}

theorem Numbered.head : Numbered n (a :: as) (n + 1) a :=
  ⟨0, rfl, rfl⟩

theorem Numbered.tail (h : Numbered (n + 1) as m a) : Numbered n (b :: as) m a := by
  obtain ⟨i, rfl, hi⟩ := h
  exact ⟨i + 1, by omega, hi⟩

theorem Numbered.append_left (h : Numbered n as m a) : Numbered n (as ++ bs) m a := by
  obtain ⟨i, rfl, hi⟩ := h
  obtain ⟨hlength, -⟩ := List.getElem?_eq_some_iff.mp hi
  exact ⟨i, rfl, by rw [List.getElem?_append_left hlength, hi]⟩

theorem Numbered.append_right (h : Numbered (n + as.length) bs m a) :
    Numbered n (as ++ bs) m a := by
  obtain ⟨i, rfl, hi⟩ := h
  refine ⟨as.length + i, by omega, ?_⟩
  rw [List.getElem?_append_right (Nat.le_add_right _ _), Nat.add_sub_cancel_left, hi]

/-- The number of an item lies behind what was counted before, within the length of the list. -/
theorem Numbered.between (h : Numbered n as m a) : n < m ∧ m ≤ n + as.length := by
  obtain ⟨i, rfl, hi⟩ := h
  obtain ⟨hlength, -⟩ := List.getElem?_eq_some_iff.mp hi
  omega

end Numbered

/-! ## Places in a listing -/

/-- What a node adds to the numbers of nodes, texts and attributes, without anything below it. -/
def Node.ownOrdinals : Node → Ordinals
  | .element _ attrs _ => ⟨1, 0, attrs.length⟩
  | .text _ => ⟨1, 1, 0⟩
  | .doctype _ | .comment _ | .var _ | .conditional .. | .content | .markdown _ | .loop .. =>
    ⟨1, 0, 0⟩

/-- The numbers of nodes, texts and attributes in a part of the listing of a tree. -/
def Ordinals.total (listing : List Node) : Ordinals :=
  ⟨(listing.map (·.ownOrdinals.nodes)).sum, (listing.map (·.ownOrdinals.texts)).sum,
    (listing.map (·.ownOrdinals.attrs)).sum⟩

namespace Ordinals

theorem add_zero (a : Ordinals) : a.add {} = a :=
  rfl

theorem total_cons (node : Node) (listing : List Node) :
    total (node :: listing) = node.ownOrdinals.add (total listing) := by
  simp [total, add]

theorem total_append (listing more : List Node) :
    total (listing ++ more) = (total listing).add (total more) := by
  simp [total, add]

theorem total_singleton (node : Node) : total [node] = node.ownOrdinals :=
  total_cons node []

theorem nodes_total (listing : List Node) : (total listing).nodes = listing.length := by
  induction listing with
  | nil => rfl
  | cons node listing ih =>
      have hone : node.ownOrdinals.nodes = 1 := by cases node <;> rfl
      rw [total_cons, add_nodes, hone, ih, List.length_cons, Nat.add_comm]

theorem texts_total (listing : List Node) :
    (total listing).texts =
      (listing.filterMap fun | .text value => some value | _ => none).length := by
  induction listing with
  | nil => rfl
  | cons node listing ih =>
      rw [total_cons, add_texts, ih]
      cases node <;> simp [Node.ownOrdinals, Nat.add_comm]

theorem attrs_total (listing : List Node) :
    (total listing).attrs =
      (listing.flatMap fun | .element _ attrs _ => attrs | _ => []).length := by
  induction listing with
  | nil => rfl
  | cons node listing ih =>
      rw [total_cons, add_attrs, ih]
      cases node <;> simp [Node.ownOrdinals]

end Ordinals

namespace Node

/-- The numbers of nodes, texts and attributes of a tree are those of its listing. -/
theorem ordinalsList_eq_total (nodes : List Node) :
    ordinalsList nodes = .total (preorderList nodes) := by
  induction nodes using Node.inductionOn with
  | nil => rfl
  | element name attrs children nodes ihChildren ih =>
      rw [ordinalsList, ordinals, preorderList, preorder, Ordinals.total_append,
        Ordinals.total_cons, ihChildren, ih]
      rfl
  | conditional reference child nodes ihBelow ih | loop reference child nodes ihBelow ih =>
      rw [ordinalsList, ordinalsList, preorderList, preorderList, List.append_nil,
        Ordinals.add_zero] at ihBelow
      rw [ordinalsList, ordinals, preorderList, preorder, Ordinals.total_append,
        Ordinals.total_cons, ihBelow, ih]
      rfl
  | doctype _ nodes ih | text _ nodes ih | comment _ nodes ih | var _ nodes ih | content nodes ih
  | markdown _ nodes ih =>
      rw [ordinalsList, ih, preorderList, Ordinals.total_append]
      rfl

theorem ordinals_eq_total (node : Node) : node.ordinals = .total node.preorder := by
  have h := ordinalsList_eq_total [node]
  rwa [ordinalsList, ordinalsList, preorderList, preorderList, List.append_nil,
    Ordinals.add_zero] at h

theorem length_texts (nodes : List Node) :
    (texts nodes).length = (ordinalsList nodes).texts := by
  rw [ordinalsList_eq_total, Ordinals.texts_total]
  rfl

theorem length_attributes (nodes : List Node) :
    (attributes nodes).length = (ordinalsList nodes).attrs := by
  rw [ordinalsList_eq_total, Ordinals.attrs_total]
  rfl

section Place

variable {nodes earlier later : List Node} {node : Node}

theorem numbered_preorderList (h : preorderList nodes = earlier ++ node :: later) :
    Numbered 0 (preorderList nodes) ((Ordinals.total earlier).nodes + 1) node := by
  rw [h, Ordinals.nodes_total]
  apply Numbered.append_right
  rw [Nat.zero_add]
  exact .head

theorem numbered_texts {value : String} (h : preorderList nodes = earlier ++ .text value :: later) :
    Numbered 0 (texts nodes) ((Ordinals.total earlier).texts + 1) value := by
  rw [texts, h, List.filterMap_append]
  apply Numbered.append_right
  rw [Ordinals.texts_total, Nat.zero_add]
  exact .head

theorem numbered_attributes
    {name : String} {attrs : List Attribute} {children : List Node} {n : Nat} {attr : Attribute}
    (h : preorderList nodes = earlier ++ .element name attrs children :: later)
    (hattr : Numbered (Ordinals.total earlier).attrs attrs n attr) :
    Numbered 0 (attributes nodes) n attr := by
  rw [Ordinals.attrs_total] at hattr
  rw [attributes, h, List.flatMap_append]
  apply Numbered.append_right
  rw [Nat.zero_add]
  exact hattr.append_left

/-- A number belongs to one place: whatever is counted, the part before the place and the node at
the place are determined by a number that is reached at that node. -/
theorem eq_of_number
    {earlier' later' : List Node} {node' : Node} {n : Nat} (count : Node → Nat)
    (h : earlier ++ node :: later = earlier' ++ node' :: later')
    (hn : (earlier.map count).sum < n ∧ n ≤ (earlier.map count).sum + count node)
    (hn' : (earlier'.map count).sum < n ∧ n ≤ (earlier'.map count).sum + count node') :
    earlier = earlier' ∧ node = node' := by
  induction earlier generalizing earlier' n with
  | nil =>
      cases earlier' with
      | nil => exact ⟨rfl, (List.cons.inj h).1⟩
      | cons first earlier' =>
          obtain ⟨rfl, -⟩ := List.cons.inj h
          simp only [List.map_nil, List.sum_nil, List.map_cons, List.sum_cons] at hn hn'
          omega
  | cons first earlier ih =>
      cases earlier' with
      | nil =>
          obtain ⟨rfl, -⟩ := List.cons.inj h
          simp only [List.map_nil, List.sum_nil, List.map_cons, List.sum_cons] at hn hn'
          omega
      | cons first' earlier' =>
          obtain ⟨rfl, hrest⟩ := List.cons.inj h
          simp only [List.map_cons, List.sum_cons] at hn hn'
          -- The number is counted on from the common first node.
          obtain ⟨hearlier, hnode⟩ := ih (n := n - count first) hrest (by omega) (by omega)
          exact ⟨by rw [hearlier], hnode⟩

end Place

end Node

end Stencil
