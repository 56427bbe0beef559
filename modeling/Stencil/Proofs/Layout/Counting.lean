import Stencil.Proofs.Layout.Renaming

/-!
# Normalization with counters

The search for an unused number need not begin at two every time.  A namespace may also remember,
for every reference that it met again, the last number tried for it; all numbers up to this one are
in use, so the search can go on from there.  The rules of this module say what a pass with such
counters does, one rule for every kind of node.  Nothing bounds a search, and a pass that runs into
an endless one has no result.

Every search ends (`Counting.exists_search`), so every pass has a result (`Node.exists_counted`),
and the result is the same as without counters (`Node.Counted.eq_renameList`).
-/

namespace Stencil

/-- The references in use, and for every reference the last number tried for it. -/
structure Counting where
  used : Namespace := []
  last : String → Nat := fun _ => 1

/-! ## The rules -/

namespace Counting

/-- Of the names numbered from `n` on, the first unused one has number `m`. -/
inductive Search (used : Namespace) (reference : String) : Nat → Nat → Prop
  | unused {n : Nat} (h : Namespace.numbered reference n ∉ used) : Search used reference n n
  | taken {n m : Nat} (h : Namespace.numbered reference n ∈ used)
      (hnext : Search used reference (n + 1) m) : Search used reference n m

/-- Reserve `name` with its number `n`. -/
def number (counting : Counting) (reference : String) (n : Nat) : Counting where
  used := Namespace.numbered reference n :: counting.used
  last other := if other = reference then n else counting.last other

/-- The reference becomes the name: it is kept if it is unused, otherwise the search goes on after
the last number tried. -/
inductive Reserves : Counting → String → String → Counting → Prop
  | keep {counting : Counting} {reference : String} (h : reference ∉ counting.used) :
      Reserves counting reference reference
        { counting with used := reference :: counting.used }
  | number {counting : Counting} {reference : String} {n : Nat} (h : reference ∈ counting.used)
      (hsearch : Search counting.used reference (counting.last reference + 1) n) :
      Reserves counting reference (Namespace.numbered reference n) (counting.number reference n)

end Counting

/-- The references of the attributes are reserved in order. -/
inductive Attribute.Counted : Counting → List Attribute → List Attribute → Counting → Prop
  | nil {counting : Counting} : Counted counting [] [] counting
  | literal {counting later : Counting} {attrs renamed : List Attribute} (name value : String)
      (hrest : Counted counting attrs renamed later) :
      Counted counting (⟨name, .literal value⟩ :: attrs) (⟨name, .literal value⟩ :: renamed) later
  | var {counting middle later : Counting} {reference reference' : String}
      {attrs renamed : List Attribute} (name : String)
      (hreference : counting.Reserves reference reference' middle)
      (hrest : Counted middle attrs renamed later) :
      Counted counting (⟨name, .var reference⟩ :: attrs) (⟨name, .var reference'⟩ :: renamed) later
  | conditional {counting middle later : Counting} {reference reference' : String}
      {attrs renamed : List Attribute} (name : String)
      (hreference : counting.Reserves reference reference' middle)
      (hrest : Counted middle attrs renamed later) :
      Counted counting (⟨name, .conditional reference⟩ :: attrs)
        (⟨name, .conditional reference'⟩ :: renamed) later

/-- The references of the tree are reserved in document order; a loop template starts anew. -/
inductive Node.Counted : Counting → List Node → List Node → Counting → Prop
  | nil {counting : Counting} : Counted counting [] [] counting
  | doctype {counting later : Counting} {nodes renamed : List Node} (value : String)
      (hrest : Counted counting nodes renamed later) :
      Counted counting (.doctype value :: nodes) (.doctype value :: renamed) later
  | element {counting inner middle later : Counting} {attrs attrs' : List Attribute}
      {children children' nodes renamed : List Node} (name : String)
      (hattrs : Attribute.Counted counting attrs attrs' inner)
      (hchildren : Counted inner children children' middle)
      (hrest : Counted middle nodes renamed later) :
      Counted counting (.element name attrs children :: nodes)
        (.element name attrs' children' :: renamed) later
  | text {counting later : Counting} {nodes renamed : List Node} (value : String)
      (hrest : Counted counting nodes renamed later) :
      Counted counting (.text value :: nodes) (.text value :: renamed) later
  | comment {counting later : Counting} {nodes renamed : List Node} (value : String)
      (hrest : Counted counting nodes renamed later) :
      Counted counting (.comment value :: nodes) (.comment value :: renamed) later
  | var {counting middle later : Counting} {reference reference' : String}
      {nodes renamed : List Node}
      (hreference : counting.Reserves reference reference' middle)
      (hrest : Counted middle nodes renamed later) :
      Counted counting (.var reference :: nodes) (.var reference' :: renamed) later
  | conditional {counting inner middle later : Counting} {reference reference' : String}
      {child child' : Node} {nodes renamed : List Node}
      (hreference : counting.Reserves reference reference' inner)
      (hchild : Counted inner [child] [child'] middle)
      (hrest : Counted middle nodes renamed later) :
      Counted counting (.conditional reference child :: nodes)
        (.conditional reference' child' :: renamed) later
  | content {counting later : Counting} {nodes renamed : List Node}
      (hrest : Counted counting nodes renamed later) :
      Counted counting (.content :: nodes) (.content :: renamed) later
  | markdown {counting middle later : Counting} {reference reference' : String}
      {nodes renamed : List Node}
      (hreference : counting.Reserves reference reference' middle)
      (hrest : Counted middle nodes renamed later) :
      Counted counting (.markdown reference :: nodes) (.markdown reference' :: renamed) later
  | loop {counting inside middle later : Counting} {reference reference' : String}
      {template template' : Node} {nodes renamed : List Node}
      (hreference : counting.Reserves reference reference' middle)
      (htemplate : Counted {} [template] [template'] inside)
      (hrest : Counted middle nodes renamed later) :
      Counted counting (.loop reference template :: nodes)
        (.loop reference' template' :: renamed) later

/-! ## Every search ends -/

namespace Counting

section Search

variable {used : Namespace} {reference : String} {n m k : Nat}

/-- A bounded search that finds an unused name is a search. -/
theorem search_of_freshFrom
    {tries : Nat} (h : Namespace.freshFrom used reference n tries ∉ used) :
    ∃ m, Search used reference n m ∧
      Namespace.freshFrom used reference n tries = Namespace.numbered reference m := by
  induction tries generalizing n with
  | zero => exact ⟨n, .unused h, rfl⟩
  | succ tries ih =>
      rw [Namespace.freshFrom] at h ⊢
      split_ifs at h ⊢ with htaken
      · obtain ⟨m, hsearch, heq⟩ := ih h
        exact ⟨m, .taken (List.contains_iff_mem.mp htaken) hsearch, heq⟩
      · exact ⟨n, .unused h, rfl⟩

/-- Whatever is in use and wherever a search begins, it ends: the numbers below the first unused one
bear names in use, of which there are finitely many. -/
theorem exists_search (used : Namespace) (reference : String) (n : Nat) :
    ∃ m, Search used reference n m := by
  obtain ⟨m, hsearch, -⟩ := search_of_freshFrom (Namespace.freshFrom_notMem used reference n)
  exact ⟨m, hsearch⟩

theorem Search.le (h : Search used reference n m) : n ≤ m := by
  induction h with
  | unused => exact Nat.le_refl _
  | taken _ _ ih => exact Nat.le_of_succ_le ih

theorem Search.taken_of_lt (h : Search used reference n m) (hn : n ≤ k) (hm : k < m) :
    Namespace.numbered reference k ∈ used := by
  induction h with
  | unused => omega
  | @taken n _ htaken _ ih =>
      rcases Nat.eq_or_lt_of_le hn with rfl | hlt
      · exact htaken
      · exact ih hlt hm

theorem Search.unique (h : Search used reference n m) (h' : Search used reference n k) : m = k := by
  induction h with
  | unused hunused =>
      cases h' with
      | unused => rfl
      | taken htaken _ => exact absurd htaken hunused
  | taken htaken _ ih =>
      cases h' with
      | unused hunused => exact absurd htaken hunused
      | taken _ hnext => exact ih hnext

/-- A search may begin at a lower number if the names in between are in use. -/
theorem Search.of_taken
    (h : Search used reference k m) (hle : n ≤ k)
    (htaken : ∀ i, n ≤ i → i < k → Namespace.numbered reference i ∈ used) :
    Search used reference n m := by
  obtain ⟨d, rfl⟩ := Nat.exists_eq_add_of_le hle
  induction d generalizing n with
  | zero => exact h
  | succ d ih =>
      rw [Nat.add_comm d 1, ← Nat.add_assoc] at h
      refine .taken (htaken n (Nat.le_refl n) (by omega)) (ih h (by omega) ?_)
      exact fun i hi hlt => htaken i (by omega) (by omega)

end Search

/-! ## A counter skips only names in use -/

/-- All numbers up to the last one tried are in use. -/
structure Tracks (counting : Counting) : Prop where
  one_le : ∀ reference, 1 ≤ counting.last reference
  taken : ∀ reference n, 2 ≤ n → n ≤ counting.last reference →
    Namespace.numbered reference n ∈ counting.used

theorem tracks_start : Tracks {} where
  one_le _ := Nat.le_refl 1
  taken _ _ htwo hone := absurd (Nat.le_trans htwo hone) (Nat.not_succ_le_self 1)

section Reserves

variable {counting later : Counting} {reference name : String}

theorem exists_reserves (counting : Counting) (reference : String) :
    ∃ name later, counting.Reserves reference name later := by
  by_cases hused : reference ∈ counting.used
  · obtain ⟨n, hsearch⟩ := exists_search counting.used reference (counting.last reference + 1)
    exact ⟨_, _, .number hused hsearch⟩
  · exact ⟨_, _, .keep hused⟩

/-- The number found with the counter is the one found from two on. -/
theorem numbered_eq_fresh
    {n : Nat} (htracks : counting.Tracks) (hused : reference ∈ counting.used)
    (hsearch : Search counting.used reference (counting.last reference + 1) n) :
    Namespace.numbered reference n = counting.used.fresh reference := by
  have hone := htracks.one_le reference
  have hfromTwo : Search counting.used reference 2 n :=
    hsearch.of_taken (by omega) fun i htwo hi => htracks.taken reference i htwo (by omega)
  obtain ⟨m, hbounded, heq⟩ :=
    search_of_freshFrom (Namespace.freshFrom_notMem counting.used reference 2)
  rw [Namespace.fresh, if_pos (List.contains_iff_mem.mpr hused), heq, hfromTwo.unique hbounded]

theorem Tracks.number
    {n : Nat} (htracks : counting.Tracks)
    (hsearch : Search counting.used reference (counting.last reference + 1) n) :
    (counting.number reference n).Tracks := by
  have hn := hsearch.le
  constructor
  · intro other
    simp only [Counting.number]
    split_ifs
    · omega
    · exact htracks.one_le other
  · intro other k htwo hk
    simp only [Counting.number] at hk ⊢
    split_ifs at hk with hother
    · subst hother
      rcases Nat.eq_or_lt_of_le hk with rfl | hlt
      · exact List.mem_cons_self
      · by_cases htried : k ≤ counting.last other
        · exact List.mem_cons_of_mem _ (htracks.taken other k htwo htried)
        · exact List.mem_cons_of_mem _ (hsearch.taken_of_lt (by omega) hlt)
    · exact List.mem_cons_of_mem _ (htracks.taken other k htwo hk)

/-- Reserving with counters gives the name that is found without them. -/
theorem Reserves.eq_reserve
    (h : counting.Reserves reference name later) (htracks : counting.Tracks) :
    (name, later.used) = counting.used.reserve reference ∧ later.Tracks := by
  cases h with
  | keep hunused =>
      rw [Namespace.reserve_of_notMem hunused]
      refine ⟨rfl, htracks.one_le, fun other n htwo hn => ?_⟩
      exact List.mem_cons_of_mem _ (htracks.taken other n htwo hn)
  | number hused hsearch =>
      have hname := numbered_eq_fresh htracks hused hsearch
      refine ⟨?_, htracks.number hsearch⟩
      rw [Namespace.reserve, ← hname]
      rfl

end Reserves

end Counting

/-! ## Passes with counters -/

theorem Attribute.exists_counted (counting : Counting) (attrs : List Attribute) :
    ∃ renamed later, Counted counting attrs renamed later := by
  induction attrs generalizing counting with
  | nil => exact ⟨_, _, .nil⟩
  | cons attr attrs ih =>
      obtain ⟨name, value⟩ := attr
      cases value with
      | literal value =>
          obtain ⟨renamed, later, hrest⟩ := ih counting
          exact ⟨_, _, .literal name value hrest⟩
      | var reference =>
          obtain ⟨_, middle, hreference⟩ := counting.exists_reserves reference
          obtain ⟨renamed, later, hrest⟩ := ih middle
          exact ⟨_, _, .var name hreference hrest⟩
      | conditional reference =>
          obtain ⟨_, middle, hreference⟩ := counting.exists_reserves reference
          obtain ⟨renamed, later, hrest⟩ := ih middle
          exact ⟨_, _, .conditional name hreference hrest⟩

theorem Attribute.Counted.eq_rename
    {counting later : Counting} {attrs renamed : List Attribute}
    (h : Counted counting attrs renamed later) (htracks : counting.Tracks) :
    (renamed, later.used) = rename counting.used attrs ∧ later.Tracks := by
  induction h with
  | nil => exact ⟨rfl, htracks⟩
  | literal name value _ ih =>
      obtain ⟨heq, hlater⟩ := ih htracks
      refine ⟨?_, hlater⟩
      rw [rename, ← heq]
  | var name hreference _ ih | conditional name hreference _ ih =>
      obtain ⟨hreserve, hmiddle⟩ := hreference.eq_reserve htracks
      obtain ⟨heq, hlater⟩ := ih hmiddle
      refine ⟨?_, hlater⟩
      rw [rename, ← hreserve]
      simp only [← heq]

namespace Node

theorem Counted.length_eq
    {counting later : Counting} {nodes renamed : List Node}
    (h : Counted counting nodes renamed later) : renamed.length = nodes.length := by
  induction h with
  | nil => rfl
  | doctype _ _ ih | text _ _ ih | comment _ _ ih | content _ ih | var _ _ ih | markdown _ _ ih =>
      exact congrArg Nat.succ ih
  | element _ _ _ _ _ ih | conditional _ _ _ _ ih | loop _ _ _ _ ih => exact congrArg Nat.succ ih

/-- A single node becomes a single node. -/
theorem exists_counted_singleton
    {node : Node} {counting : Counting}
    (h : ∃ renamed later, Counted counting [node] renamed later) :
    ∃ node' later, Counted counting [node] [node'] later := by
  obtain ⟨renamed, later, hcounted⟩ := h
  obtain ⟨node', rfl⟩ := List.length_eq_one_iff.mp hcounted.length_eq
  exact ⟨node', later, hcounted⟩

/-- Every pass ends, whatever is in use and whatever the counters are. -/
theorem exists_counted (counting : Counting) (nodes : List Node) :
    ∃ renamed later, Counted counting nodes renamed later := by
  induction nodes using Node.inductionOn generalizing counting with
  | nil => exact ⟨_, _, .nil⟩
  | doctype value nodes ih =>
      obtain ⟨_, _, hrest⟩ := ih counting
      exact ⟨_, _, .doctype value hrest⟩
  | element name attrs children nodes ihChildren ih =>
      obtain ⟨_, inner, hattrs⟩ := Attribute.exists_counted counting attrs
      obtain ⟨_, middle, hchildren⟩ := ihChildren inner
      obtain ⟨_, _, hrest⟩ := ih middle
      exact ⟨_, _, .element name hattrs hchildren hrest⟩
  | text value nodes ih =>
      obtain ⟨_, _, hrest⟩ := ih counting
      exact ⟨_, _, .text value hrest⟩
  | comment value nodes ih =>
      obtain ⟨_, _, hrest⟩ := ih counting
      exact ⟨_, _, .comment value hrest⟩
  | var reference nodes ih =>
      obtain ⟨_, middle, hreference⟩ := counting.exists_reserves reference
      obtain ⟨_, _, hrest⟩ := ih middle
      exact ⟨_, _, .var hreference hrest⟩
  | conditional reference child nodes ihChild ih =>
      obtain ⟨_, inner, hreference⟩ := counting.exists_reserves reference
      obtain ⟨_, middle, hchild⟩ := exists_counted_singleton (ihChild inner)
      obtain ⟨_, _, hrest⟩ := ih middle
      exact ⟨_, _, .conditional hreference hchild hrest⟩
  | content nodes ih =>
      obtain ⟨_, _, hrest⟩ := ih counting
      exact ⟨_, _, .content hrest⟩
  | markdown reference nodes ih =>
      obtain ⟨_, middle, hreference⟩ := counting.exists_reserves reference
      obtain ⟨_, _, hrest⟩ := ih middle
      exact ⟨_, _, .markdown hreference hrest⟩
  | loop reference template nodes ihTemplate ih =>
      obtain ⟨_, middle, hreference⟩ := counting.exists_reserves reference
      obtain ⟨_, _, htemplate⟩ := exists_counted_singleton (ihTemplate {})
      obtain ⟨_, _, hrest⟩ := ih middle
      exact ⟨_, _, .loop hreference htemplate hrest⟩

/-- A pass with counters gives the tree that a pass without them gives. -/
theorem Counted.eq_renameList
    {counting later : Counting} {nodes renamed : List Node}
    (h : Counted counting nodes renamed later) (htracks : counting.Tracks) :
    (renamed, later.used) = renameList counting.used nodes ∧ later.Tracks := by
  induction h with
  | nil => exact ⟨rfl, htracks⟩
  | doctype _ _ ih | text _ _ ih | comment _ _ ih | content _ ih =>
      obtain ⟨heq, hlater⟩ := ih htracks
      refine ⟨?_, hlater⟩
      rw [renameList, rename]
      simp only [← heq]
  | element name hattrs _ _ ihChildren ih =>
      obtain ⟨hattrsEq, hinner⟩ := hattrs.eq_rename htracks
      obtain ⟨hchildren, hmiddle⟩ := ihChildren hinner
      obtain ⟨heq, hlater⟩ := ih hmiddle
      refine ⟨?_, hlater⟩
      rw [renameList, rename]
      simp only [← hattrsEq, ← hchildren, ← heq]
  | var hreference _ ih | markdown hreference _ ih =>
      obtain ⟨hreserve, hmiddle⟩ := hreference.eq_reserve htracks
      obtain ⟨heq, hlater⟩ := ih hmiddle
      refine ⟨?_, hlater⟩
      rw [renameList, rename]
      simp only [← hreserve, ← heq]
  | conditional hreference _ _ ihChild ih =>
      obtain ⟨hreserve, hinner⟩ := hreference.eq_reserve htracks
      obtain ⟨hchild, hmiddle⟩ := ihChild hinner
      obtain ⟨heq, hlater⟩ := ih hmiddle
      simp only [renameList, Prod.mk.injEq, List.cons.injEq, and_true] at hchild
      refine ⟨?_, hlater⟩
      rw [renameList, rename]
      simp only [← hreserve, ← hchild.1, ← hchild.2, ← heq]
  | loop hreference _ _ ihTemplate ih =>
      obtain ⟨hreserve, hmiddle⟩ := hreference.eq_reserve htracks
      obtain ⟨htemplate, -⟩ := ihTemplate Counting.tracks_start
      obtain ⟨heq, hlater⟩ := ih hmiddle
      simp only [renameList, Prod.mk.injEq, List.cons.injEq, and_true] at htemplate
      refine ⟨?_, hlater⟩
      rw [renameList, rename]
      simp only [← hreserve, ← htemplate.1, ← heq]

/-- From an empty namespace there is exactly one result of a pass with counters. -/
theorem exists_counted_iff (nodes renamed : List Node) :
    (∃ later, Counted {} nodes renamed later) ↔ renamed = (renameList [] nodes).1 := by
  have hresult : ∀ {renamed later}, Counted {} nodes renamed later →
      renamed = (renameList [] nodes).1 := fun h =>
    congrArg Prod.fst (h.eq_renameList Counting.tracks_start).1
  constructor
  · rintro ⟨later, h⟩
    exact hresult h
  · rintro rfl
    obtain ⟨renamed, later, h⟩ := exists_counted {} nodes
    exact ⟨later, hresult h ▸ h⟩

end Node

end Stencil
