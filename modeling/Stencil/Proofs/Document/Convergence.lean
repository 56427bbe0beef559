import Stencil.Document.Difference
import Stencil.Proofs.Attribute.Pairing

/-!
# How two documents converge

A comparison is a computation; `Converges` says what it does as a relation, one rule for every kind
of step: two nodes are kept as one, two texts become a variable, two elements converge inside, or a
node that has no counterpart becomes a conditional.  The rules also say where in the anchor each
step is made.  Comparing concrete trees follows the rules (`converges_compareTrees`), and whatever
is to be shown of a comparison is shown by induction on them.
-/

namespace Stencil.Comparison

/-! ## Attributes -/

/-- The attributes of the anchor, numbered on from `n`, that the other element has as well. -/
def sharedAttributes (other : List Attribute) : Nat → List Attribute → Noted Note (List Attribute)
  | _, [] => ⟨[], []⟩
  | n, attr :: attrs =>
    let rest := sharedAttributes other (n + 1) attrs
    match Attribute.named? other attr.name with
    | none => rest
    | some partner =>
      let shared := comparePair (n + 1) attr partner
      ⟨shared.value :: rest.value, shared.notes ++ rest.notes⟩

theorem sharedAttributes_eq_all (other attrs : List Attribute) (before : Nat) :
    let merged : Noted Note (List (Option Attribute)) :=
      .all <| (attrs.map fun attr => (attr, Attribute.named? other attr.name)).mapIdx
        fun i (attr, partner) =>
          match partner with
          | none => pure none
          | some partner => (comparePair (before + i + 1) attr partner).map some
    sharedAttributes other before attrs = ⟨merged.value.filterMap id, merged.notes⟩ := by
  induction attrs generalizing before with
  | nil => rfl
  | cons attr attrs ih =>
      have hshift : ∀ i, before + (i + 1) + 1 = before + 1 + i + 1 := by omega
      simp only [Noted.all] at ih
      simp only [List.map_cons, List.mapIdx_cons, hshift, Noted.all, List.flatMap_cons]
      rw [sharedAttributes, ih (before + 1)]
      cases Attribute.named? other attr.name with
      | none => rfl
      | some partner => rfl

/-- With distinct names the comparison of attributes takes the shared ones in the order of the
anchor and reports all others. -/
theorem compareAttributes_eq
    {element : String} {before : Nat} {anchor other : List Attribute}
    (hanchor : (anchor.map Attribute.name).Nodup)
    (hother : (other.map Attribute.name).Nodup) :
    compareAttributes element before anchor other =
      { value := (sharedAttributes other before anchor).value
        notes := (sharedAttributes other before anchor).notes ++
          ((Attribute.pairing anchor other).warnings element).map .warning } := by
  have hshared := sharedAttributes_eq_all other anchor before
  have hvalue := congrArg Noted.value hshared
  have hnotes := congrArg Noted.notes hshared
  rw [compareAttributes, Attribute.pairing_eq hanchor hother]
  exact congrArg₂ (fun value notes => Noted.mk value (notes ++ _)) hvalue.symm hnotes.symm

/-- `Shares other n attrs shared notes`: of the attributes of the anchor, numbered on from `n`,
those that `other` has as well become `shared`, and `notes` are made on the way. -/
inductive Shares (other : List Attribute) :
    Nat → List Attribute → List Attribute → List Note → Prop
  | nil {n : Nat} : Shares other n [] [] []
  | drop {n : Nat} {attr : Attribute} {attrs shared : List Attribute} {notes : List Note}
      (hnone : Attribute.named? other attr.name = none)
      (hrest : Shares other (n + 1) attrs shared notes) :
      Shares other n (attr :: attrs) shared notes
  | keep {n : Nat} {name value : String} {attrs shared : List Attribute} {notes : List Note}
      (hsame : Attribute.named? other name = some (.static name value))
      (hrest : Shares other (n + 1) attrs shared notes) :
      Shares other n (.static name value :: attrs) (.static name value :: shared) notes
  | var {n : Nat} {name v w : String} {attrs shared : List Attribute} {notes : List Note}
      (hother : Attribute.named? other name = some (.static name w)) (hne : v ≠ w)
      (hrest : Shares other (n + 1) attrs shared notes) :
      Shares other n (.static name v :: attrs) (⟨name, .var (attrReference (n + 1))⟩ :: shared)
        (.placeholder (attrReference (n + 1)) (.text v) (.text w) :: notes)

theorem shares_sharedAttributes
    {other attrs : List Attribute} (n : Nat)
    (hliteral : ∀ attr ∈ attrs, attr.value.isPlaceholder = false)
    (hother : ∀ attr ∈ other, attr.value.isPlaceholder = false) :
    Shares other n attrs (sharedAttributes other n attrs).value
      (sharedAttributes other n attrs).notes := by
  induction attrs generalizing n with
  | nil => exact .nil
  | cons attr attrs ih =>
      have hrest := ih (n + 1) fun attr hattr => hliteral attr (List.mem_cons_of_mem _ hattr)
      obtain ⟨v, hv⟩ :=
        Attribute.eq_static_of_not_isPlaceholder (hliteral attr List.mem_cons_self)
      rw [sharedAttributes]
      cases hpartner : Attribute.named? other attr.name with
      | none => exact .drop hpartner hrest
      | some partner =>
          obtain ⟨w, hw⟩ :=
            Attribute.eq_static_of_not_isPlaceholder
              (hother partner (Attribute.mem_of_named? hpartner))
          rw [Attribute.name_of_named? hpartner] at hw
          rw [hw] at hpartner ⊢
          generalize attr.name = name at hv hpartner
          subst hv
          by_cases hvalue : v = w
          · subst hvalue
            simpa [comparePair, Attribute.static, pure] using Shares.keep hpartner hrest
          · simpa [comparePair, Attribute.static, introduce, hvalue] using
              Shares.var hpartner hvalue hrest

/-! ## Positions -/

/-- Where in the anchor a comparison stands: the number of the parent, what comes before in
document order, the number of siblings passed, and the insertions made since the last of them. -/
structure Position where
  parent : Nat := 0
  before : Ordinals := {}
  child : Nat := 0
  insertions : Nat := 0

namespace Position

/-- The position after an anchor node and everything below it. -/
def past (position : Position) (node : Node) : Position :=
  { position with
    before := position.before.add node.ordinals
    child := position.child + 1
    insertions := 0 }

/-- The position after an insertion. -/
def inserted (position : Position) : Position :=
  { position with insertions := position.insertions + 1 }

/-- The position before the first child of an anchor element with the given attributes. -/
def inside (position : Position) (attrs : List Attribute) : Position :=
  { parent := position.before.nodes + 1
    before := position.before.add ⟨1, 0, attrs.length⟩ }

end Position

/-! ## The rules -/

/-- Two nodes that need no placeholder: the first stands for both. -/
inductive Keeps : Node → Node → Prop
  | doctype (value : String) : Keeps (.doctype value) (.doctype value)
  | text (value : String) : Keeps (.text value) (.text value)
  | comment (anchor other : String) : Keeps (.comment anchor) (.comment other)
  | content : Keeps .content .content

/-- `Converges position anchor other nodes notes`: from the position on, the siblings of the
anchor and those of the other document become `nodes`, and `notes` are made on the way. -/
inductive Converges :
    Position → List Node → List Node → List Node → List Note → Prop
  | nil {position : Position} : Converges position [] [] [] []
  | keep {position : Position} {a b : Node} {as bs nodes : List Node} {notes : List Note}
      (hkeeps : Keeps a b)
      (hrest : Converges (position.past a) as bs nodes notes) :
      Converges position (a :: as) (b :: bs) (a :: nodes) notes
  | var {position : Position} {v w : String} {as bs nodes : List Node} {notes : List Note}
      (hne : v ≠ w)
      (hrest : Converges (position.past (.text v)) as bs nodes notes) :
      Converges position (.text v :: as) (.text w :: bs)
        (.var (varReference (position.before.texts + 1)) :: nodes)
        (.placeholder (varReference (position.before.texts + 1)) (.text v) (.text w) :: notes)
  | element {position : Position} {name : String} {attrs otherAttrs : List Attribute}
      {shared : List Attribute} {children otherChildren merged as bs nodes : List Node}
      {attrNotes inner notes : List Note}
      (hattrs : Attribute.Static attrs) (hother : Attribute.Static otherAttrs)
      (hshared : Shares otherAttrs position.before.attrs attrs shared attrNotes)
      (hinside : Converges (position.inside attrs) children otherChildren merged inner)
      (hrest : Converges (position.past (.element name attrs children)) as bs nodes notes) :
      Converges position
        (.element name attrs children :: as) (.element name otherAttrs otherChildren :: bs)
        (.element name shared merged :: nodes)
        (attrNotes ++ ((Attribute.pairing attrs otherAttrs).warnings name).map .warning ++
          inner ++ notes)
  | lone {position : Position} {a : Node} {as bs nodes : List Node} {notes : List Note}
      (hconcrete : Node.Concrete [a])
      (hlone : ∀ b ∈ bs.head?, corresponds a b = false)
      (hrest : Converges (position.past a) as bs nodes notes) :
      Converges position (a :: as) bs
        (.conditional (showReference (position.before.nodes + 1)) a :: nodes)
        (.placeholder (showReference (position.before.nodes + 1)) (.flag true) (.flag false) ::
          notes)
  | extra {position : Position} {b : Node} {as bs nodes : List Node} {notes : List Note}
      (hconcrete : Node.Concrete [b])
      (hlone : ∀ a ∈ as.head?, corresponds a b = false)
      (hrest : Converges position.inserted as bs nodes notes) :
      Converges position as (b :: bs)
        (.conditional
          (extraReference position.parent position.child (position.insertions + 1)) b :: nodes)
        (.placeholder (extraReference position.parent position.child (position.insertions + 1))
          (.flag false) (.flag true) :: notes)

/-! ## Comparing follows the rules -/

/-- What the steps from a position on become. -/
def resolveFrom (position : Position) (passed : Nat) (as bs : List Node) : Noted Note (List Node) :=
  resolveSteps position.parent position.insertions <|
    Alignment.stepsFrom (fun a b => corresponds a.node b) (comparables position.before as)
      ⟨position.child, passed⟩ bs

theorem length_comparables (before : Ordinals) (as : List Node) :
    (comparables before as).length = as.length := by
  induction as generalizing before with
  | nil => rfl
  | cons a as ih => rw [comparables, List.length_cons, List.length_cons, ih]

section Steps

variable {position : Position} {passed : Nat} {a b : Node} {as bs : List Node}

theorem resolveFrom_pair (h : corresponds a b = true) :
    resolveFrom position passed (a :: as) (b :: bs) =
      { value := (compare position.before a b).value ::
          (resolveFrom (position.past a) (passed + 1) as bs).value
        notes := (compare position.before a b).notes ++
          (resolveFrom (position.past a) (passed + 1) as bs).notes } := by
  rw [resolveFrom, comparables, Alignment.stepsFrom_cons_cons, if_pos h, resolveSteps]
  simp [bind, pure, Noted.bind, resolveFrom, Position.past, Alignment.Cursor.nextBoth]

theorem resolveFrom_lone
    (h : ∀ b ∈ bs.head?, corresponds a b = false ∧ bs.length ≤ as.length) :
    resolveFrom position passed (a :: as) bs =
      { value := .conditional (showReference (position.before.nodes + 1)) a ::
          (resolveFrom (position.past a) passed as bs).value
        notes :=
          .placeholder (showReference (position.before.nodes + 1)) (.flag true) (.flag false) ::
            (resolveFrom (position.past a) passed as bs).notes } := by
  cases bs with
  | nil =>
      rw [resolveFrom, comparables, Alignment.stepsFrom_cons_nil, resolveSteps]
      simp [bind, pure, Noted.bind, resolveFrom, introduce, Position.past,
        Alignment.Cursor.nextFirst]
  | cons b bs =>
      obtain ⟨hcorresponds, hlength⟩ := h b rfl
      have hlonger : bs.length < (comparables (position.before.add a.ordinals) as).length := by
        rw [length_comparables]
        exact hlength
      rw [resolveFrom, comparables, Alignment.stepsFrom_cons_cons, if_neg (by simp [hcorresponds]),
        if_pos hlonger, resolveSteps]
      simp [bind, pure, Noted.bind, resolveFrom, introduce, Position.past,
        Alignment.Cursor.nextFirst]

theorem resolveFrom_extra
    (h : ∀ a ∈ as.head?, corresponds a b = false ∧ as.length ≤ bs.length + 1) :
    resolveFrom position passed as (b :: bs) =
      { value := .conditional
            (extraReference position.parent position.child (position.insertions + 1)) b ::
          (resolveFrom position.inserted (passed + 1) as bs).value
        notes := .placeholder
            (extraReference position.parent position.child (position.insertions + 1))
            (.flag false) (.flag true) ::
          (resolveFrom position.inserted (passed + 1) as bs).notes } := by
  cases as with
  | nil =>
      rw [resolveFrom, comparables, Alignment.stepsFrom_nil, Alignment.secondsFrom, resolveSteps]
      simp [bind, pure, Noted.bind, resolveFrom, introduce, Position.inserted, comparables,
        Alignment.stepsFrom_nil, Alignment.Cursor.nextSecond]
  | cons a as =>
      obtain ⟨hcorresponds, hlength⟩ := h a rfl
      have hshorter : ¬bs.length < (comparables (position.before.add a.ordinals) as).length := by
        rw [length_comparables]
        simp only [List.length_cons] at hlength
        omega
      rw [resolveFrom, comparables, Alignment.stepsFrom_cons_cons, if_neg (by simp [hcorresponds]),
        if_neg hshorter, resolveSteps]
      simp [bind, pure, Noted.bind, resolveFrom, introduce, Position.inserted, comparables,
        Alignment.Cursor.nextSecond]

end Steps

/-- The comparison of siblings follows the rules from every position on. -/
def Follows (as : List Node) : Prop :=
  ∀ (position : Position) (passed : Nat) (bs : List Node), Node.Concrete bs →
    Converges position as bs (resolveFrom position passed as bs).value
      (resolveFrom position passed as bs).notes

theorem follows_nil : Follows [] := by
  intro position passed bs hbs
  induction bs generalizing position passed with
  | nil => exact .nil
  | cons b bs ih =>
      rw [Node.Concrete, Node.everywhere_cons] at hbs
      rw [resolveFrom_extra (by simp)]
      exact .extra hbs.1 (by simp) (ih position.inserted (passed + 1) hbs.2)

/-- A pair that corresponds is kept, becomes a variable, or converges inside. -/
theorem corresponds_cases
    {a b : Node} (ha : a.IsPlain) (hb : b.IsPlain) (h : corresponds a b = true) :
    Keeps a b ∨ (∃ v w, v ≠ w ∧ a = .text v ∧ b = .text w) ∨
      ∃ name attrs children otherAttrs otherChildren,
        a = .element name attrs children ∧ b = .element name otherAttrs otherChildren := by
  cases a <;> cases b <;>
    simp only [Node.IsPlain, corresponds, Node.equivalent, Node.core, Node.sameSlot, Node.kind,
      reduceCtorEq, beq_iff_eq, Bool.or_eq_true, Bool.and_eq_true, and_true, and_false,
      false_or] at ha hb h
  case doctype.doctype v w =>
    subst h
    exact Or.inl (.doctype v)
  case text.text v w =>
    by_cases hvalue : v = w
    · subst hvalue
      exact Or.inl (.text v)
    · exact Or.inr (Or.inl ⟨v, w, hvalue, rfl, rfl⟩)
  case comment.comment v w => exact Or.inl (.comment v w)
  case content.content => exact Or.inl .content
  case element.element name attrs children name' otherAttrs otherChildren =>
    subst h
    exact Or.inr (Or.inr ⟨name, attrs, children, otherAttrs, otherChildren, rfl, rfl⟩)

/-- A pair that corresponds follows one of the rules for pairs. -/
theorem converges_pair
    {position : Position} {a b : Node} {as bs nodes : List Node} {notes : List Note}
    (ha : Node.Concrete [a]) (hb : Node.Concrete [b])
    (hcorresponds : corresponds a b = true)
    (hbelow : ∀ name attrs children, a = .element name attrs children → Follows children)
    (hrest : Converges (position.past a) as bs nodes notes) :
    Converges position (a :: as) (b :: bs) ((compare position.before a b).value :: nodes)
      ((compare position.before a b).notes ++ notes) := by
  have hplain := ha a (by cases a <;> simp [Node.preorderList, Node.preorder])
  have hplain' := hb b (by cases b <;> simp [Node.preorderList, Node.preorder])
  obtain hkeeps | ⟨v, w, hne, rfl, rfl⟩ |
      ⟨name, attrs, children, otherAttrs, otherChildren, rfl, rfl⟩ :=
    corresponds_cases hplain hplain' hcorresponds
  · have hcompare : compare position.before a b = pure a := by
      cases hkeeps <;> simp [compare]
    rw [hcompare]
    exact .keep hkeeps hrest
  · rw [compare, if_neg hne]
    exact .var hne hrest
  · have hinside := hbelow name attrs children rfl (position.inside attrs) 0 otherChildren
      (Node.everywhere_element.mp hb).2.1
    have hshared := shares_sharedAttributes position.before.attrs hplain.1 hplain'.1
    rw [compare, compareAttributes_eq hplain.2 hplain'.2]
    simpa [bind, pure, Noted.bind, compareSiblings, resolveFrom, Position.inside, Alignment.steps]
      using Converges.element hplain hplain' hshared hinside hrest

/-- If what is below a node follows the rules and so do its later siblings, all of them do. -/
theorem follows_cons
    {a : Node} {as : List Node}
    (ha : Node.Concrete [a])
    (hbelow : ∀ name attrs children, a = .element name attrs children → Follows children)
    (ih : Follows as) :
    Follows (a :: as) := by
  intro position passed bs hbs
  induction bs generalizing position passed with
  | nil =>
      rw [resolveFrom_lone (by simp)]
      exact .lone ha (by simp) (ih (position.past a) passed [] hbs)
  | cons b bs ihBs =>
      obtain ⟨hb, hrest⟩ := Node.everywhere_cons.mp hbs
      by_cases hcorresponds : corresponds a b = true
      · rw [resolveFrom_pair hcorresponds]
        exact converges_pair ha hb hcorresponds hbelow
          (ih (position.past a) (passed + 1) bs hrest)
      · rw [Bool.not_eq_true] at hcorresponds
        by_cases hlonger : bs.length < as.length
        · rw [resolveFrom_lone (by simp [hcorresponds]; omega)]
          exact .lone ha (by simpa using hcorresponds) (ih (position.past a) passed _ hbs)
        · rw [resolveFrom_extra (by simp [hcorresponds]; omega)]
          exact .extra hb (by simpa using hcorresponds)
            (ihBs position.inserted (passed + 1) hrest)

/-- Comparing concrete siblings follows the rules. -/
theorem follows_of_concrete {as : List Node} (has : Node.Concrete as) : Follows as := by
  induction has using Node.Concrete.inductionOn with
  | nil => exact follows_nil
  | element name attrs children as h hattrs hchildren ihChildren has ih =>
      refine follows_cons (Node.everywhere_cons.mp h).1 ?_ ih
      rintro _ _ _ ⟨⟩
      exact ihChildren
  | doctype _ _ h _ ih | text _ _ h _ ih | comment _ _ h _ ih | content _ h _ ih =>
      exact follows_cons (Node.everywhere_cons.mp h).1 (by simp) ih

/-- Comparing concrete trees follows the rules from the start. -/
theorem converges_compareTrees
    {anchor other : List Node}
    (hanchor : Node.Concrete anchor) (hother : Node.Concrete other) :
    Converges {} anchor other (compareTrees anchor other).value
      (compareTrees anchor other).notes :=
  follows_of_concrete hanchor {} 0 other hother

end Stencil.Comparison
