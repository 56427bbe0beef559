import Mathlib.Data.List.Chain
import Stencil.Proofs.Markup.Builder

/-!
# Outlines

The outline of a sequence of events says, without building a tree, which nodes its tree has, in
which order, and below which element each of them stands.  It lists what the events open and add,
in their order, with one text for every maximal run of text events, and the parent of an entry is
the innermost element that is open at its event.

The tree that is built is the one tree with this outline (`eq_build_iff`).  While the events are
taken in, the roots and the open elements have the outline of the events so far
(`follows_foldl_add`), one event after another (`follows_add`).
-/

namespace Stencil.Markup

open Builder (textValue)

/-! ## Entries -/

/-- What an entry stands for: an element with its name and attributes alone, or a node with all
that is below it. -/
inductive Item where
  | opened (name : String) (attrs : List Attribute)
  | whole (node : Node)
  deriving DecidableEq, Repr

/-- A line of an outline.  The parent is given by its place in the outline. -/
structure Entry where
  item : Item
  parent : Option Nat
  deriving DecidableEq, Repr

/-- The entries are the listing of siblings in document order: `start` is the place of the first
entry, and `parent` is the parent of the siblings. -/
inductive Listed : Option Nat → Nat → List Node → List Entry → Prop
  | nil (parent : Option Nat) (start : Nat) : Listed parent start [] []
  | whole {parent : Option Nat} {start : Nat} (node : Node)
      {nodes : List Node} {entries : List Entry}
      (hnodes : Listed parent (start + 1) nodes entries) :
      Listed parent start (node :: nodes) (⟨.whole node, parent⟩ :: entries)
  | opened {parent : Option Nat} {start : Nat} (name : String) (attrs : List Attribute)
      {children nodes : List Node} {inside entries : List Entry}
      (hchildren : Listed (some start) (start + 1) children inside)
      (hnodes : Listed parent (start + 1 + inside.length) nodes entries) :
      Listed parent start (.element name attrs children :: nodes)
        (⟨.opened name attrs, parent⟩ :: (inside ++ entries))

/-! ## The outline of events -/

/-- Text events next to each other made one. -/
def glued : List Event → List Event
  | [] => []
  | .text value :: events =>
    match glued events with
    | .text later :: rest => .text (value ++ later) :: rest
    | rest => .text value :: rest
  | event :: events => event :: glued events

/-- An element that is open, with its place in the outline. -/
structure Scope where
  name : String
  place : Nat
  deriving DecidableEq, Repr

/-- The scopes that stay open when the nearest one of the name is closed with everything inside
it.  All of them stay when there is none. -/
def closeNearest (name : String) (scopes : List Scope) : List Scope :=
  if scopes.any (·.name = name) then (scopes.dropWhile (·.name ≠ name)).tail else scopes

/-- The entries so far, and the open elements, the innermost one first. -/
structure Outline where
  entries : List Entry := []
  scopes : List Scope := []
  deriving DecidableEq, Repr

namespace Outline

/-- The place of the innermost open element. -/
def innermost (outline : Outline) : Option Nat :=
  outline.scopes.head?.map Scope.place

/-- Add an entry below the innermost open element. -/
def list (outline : Outline) (item : Item) : Outline :=
  { outline with entries := outline.entries ++ [⟨item, outline.innermost⟩] }

/-- Take in an event.  A text event is a whole run. -/
def add (collapse : Bool) (outline : Outline) : Event → Outline
  | .text value =>
    let value := textValue collapse value
    if value.isEmpty then outline else outline.list (.whole (.text (.ofList value)))
  | .opened name attrs =>
    { outline.list (.opened name attrs) with
      scopes := ⟨name, outline.entries.length⟩ :: outline.scopes }
  | .node node => outline.list (.whole node)
  | .closed name => { outline with scopes := closeNearest name outline.scopes }

end Outline

/-- The outline of a sequence of events. -/
def outline (collapse : Bool) (events : List Event) : Outline :=
  (glued events).foldl (Outline.add collapse) {}

/-! ## Listings -/

namespace Listed

variable {parent : Option Nat} {start : Nat} {nodes more : List Node} {entries later : List Entry}

theorem append
    (h : Listed parent start nodes entries)
    (hmore : Listed parent (start + entries.length) more later) :
    Listed parent start (nodes ++ more) (entries ++ later) := by
  induction h with
  | nil parent start => simpa using hmore
  | @whole parent start node nodes entries _ ih =>
      refine .whole node (ih ?_)
      rwa [List.length_cons, ← Nat.add_assoc, Nat.add_right_comm] at hmore
  | @opened parent start name attrs children nodes inside entries hchildren _ _ ih =>
      rw [List.cons_append, List.cons_append, List.append_assoc]
      refine .opened name attrs hchildren (ih ?_)
      rw [List.length_cons, List.length_append] at hmore
      rwa [show start + 1 + inside.length + entries.length =
        start + (inside.length + entries.length + 1) by omega]

/-- The first sibling stands below the parent. -/
theorem parent_of_head? (h : Listed parent start nodes entries) :
    ∀ entry ∈ entries.head?, entry.parent = parent := by
  cases h <;> (intro entry hentry; cases hentry <;> rfl)

/-- Everything else stands below an entry of the listing. -/
theorem parent_of_mem (h : Listed parent start nodes entries) :
    ∀ entry ∈ entries,
      entry.parent = parent ∨ ∃ place, entry.parent = some place ∧ start ≤ place := by
  induction h with
  | nil => simp
  | whole node _ ih =>
      rintro entry (_ | ⟨_, hentry⟩)
      · exact .inl rfl
      · rcases ih entry hentry with hparent | ⟨place, hparent, hplace⟩
        · exact .inl hparent
        · exact .inr ⟨place, hparent, by omega⟩
  | opened name attrs _ _ ihChildren ih =>
      rintro entry (_ | ⟨_, hentry⟩)
      · exact .inl rfl
      rcases List.mem_append.mp hentry with hinside | hentries
      · rcases ihChildren entry hinside with hparent | ⟨place, hparent, hplace⟩
        · exact .inr ⟨_, hparent, Nat.le_refl _⟩
        · exact .inr ⟨place, hparent, by omega⟩
      · rcases ih entry hentries with hparent | ⟨place, hparent, hplace⟩
        · exact .inl hparent
        · exact .inr ⟨place, hparent, by omega⟩

/-- What is listed below an element ends where the parent of the element comes back. -/
theorem takeWhile_eq_inside
    {children : List Node} {inside : List Entry} {next : Nat}
    (hparent : ∀ place ∈ parent, place < start)
    (hchildren : Listed (some start) (start + 1) children inside)
    (hnodes : Listed parent next nodes entries) :
    (inside ++ entries).takeWhile (·.parent ≠ parent) = inside := by
  have hinside : ∀ entry ∈ inside, decide (entry.parent ≠ parent) = true := by
    intro entry hentry
    rw [decide_eq_true_eq]
    rintro hsame
    rcases hchildren.parent_of_mem entry hentry with hplace | ⟨place, hplace, hle⟩
    · exact absurd (hparent start (hsame ▸ hplace)) (Nat.lt_irrefl _)
    · have hlt := hparent place (hsame ▸ hplace)
      omega
  rw [List.takeWhile_append_of_pos hinside]
  cases entries with
  | nil => simp
  | cons entry entries =>
      have hback : entry.parent = parent := hnodes.parent_of_head? entry rfl
      simp [hback]

/-- Siblings are determined by their listing. -/
theorem unique
    (hparent : ∀ place ∈ parent, place < start)
    (h : Listed parent start nodes entries) (hmore : Listed parent start more entries) :
    nodes = more := by
  induction h generalizing more with
  | nil parent start =>
      cases hmore
      rfl
  | @whole parent start node nodes entries _ ih =>
      have hnext : ∀ place ∈ parent, place < start + 1 := fun place hplace =>
        Nat.lt_succ_of_lt (hparent place hplace)
      cases hmore with
      | whole _ hmore => rw [ih hnext hmore]
  | @opened parent start name attrs children nodes inside entries hchildren hnodes ihChildren ih =>
      generalize hall : inside ++ entries = rest at hmore
      cases hmore with
      | @opened _ _ _ _ children' nodes' inside' entries' hchildren' hnodes' =>
          have hinside := takeWhile_eq_inside hparent hchildren hnodes
          rw [hall, takeWhile_eq_inside hparent hchildren' hnodes'] at hinside
          subst hinside
          have hentries := List.append_cancel_left hall
          subst hentries
          have hbelow : ∀ place ∈ some start, place < start + 1 := by
            rintro place ⟨⟩
            exact Nat.lt_succ_self _
          have hnext : ∀ place ∈ parent, place < start + 1 + inside'.length := fun place hplace =>
            Nat.lt_of_lt_of_le (hparent place hplace) (by omega)
          rw [ihChildren hbelow hchildren', ih hnext hnodes']

end Listed

/-! ## Following the builder -/

/-- The roots and the open elements of a builder have the outline. -/
inductive Follows : List Node → List OpenElement → Outline → Prop
  | top {roots : List Node} {entries : List Entry}
      (hroots : Listed none 0 roots.reverse entries) : Follows roots [] ⟨entries, []⟩
  | inside {roots : List Node} {outer : List OpenElement} {outline : Outline}
      (name : String) (attrs : List Attribute) {children : List Node} {entries : List Entry}
      (houter : Follows roots outer outline)
      (hchildren : Listed (some outline.entries.length) (outline.entries.length + 1)
        children.reverse entries) :
      Follows roots (⟨name, attrs, children⟩ :: outer)
        ⟨outline.entries ++ ⟨.opened name attrs, outline.innermost⟩ :: entries,
          ⟨name, outline.entries.length⟩ :: outline.scopes⟩

section Follows

variable {collapse : Bool} {builder : Builder} {outline : Outline}

/-- Siblings listed from the end of the outline on are added at the current place. -/
theorem follows_foldl_append
    {nodes : List Node} {entries : List Entry}
    (h : Follows builder.roots builder.elements outline)
    (hnodes : Listed outline.innermost outline.entries.length nodes entries) :
    Follows (nodes.foldl Builder.append builder).roots
      (nodes.foldl Builder.append builder).elements
      { outline with entries := outline.entries ++ entries } := by
  obtain ⟨roots, elements, pending⟩ := builder
  cases h with
  | @top before hroots =>
      have hnext : Listed none (0 + before.length) nodes entries := by
        rw [Nat.zero_add]
        exact hnodes
      have hall := hroots.append hnext
      rw [Builder.foldl_append_roots nodes rfl]
      exact .top (by simpa using hall)
  | @inside outer around name attrs children before houter hchildren =>
      have hplace : (around.entries ++ ⟨.opened name attrs, around.innermost⟩ :: before).length =
          around.entries.length + 1 + before.length := by
        simp
        omega
      rw [hplace] at hnodes
      have hall := hchildren.append hnodes
      have hfold := @Builder.foldl_append_open ⟨roots, outer, pending⟩
        ⟨name, attrs, children⟩ outer nodes
      simp only at hfold
      rw [hfold]
      have hsiblings : Listed (some around.entries.length) (around.entries.length + 1)
          (nodes.reverse ++ children).reverse (before ++ entries) := by simpa using hall
      simpa using Follows.inside name attrs houter hsiblings

theorem follows_append (node : Node) (h : Follows builder.roots builder.elements outline) :
    Follows (builder.append node).roots (builder.append node).elements
      (outline.list (.whole node)) := by
  have hnode : Listed outline.innermost outline.entries.length [node]
      [⟨.whole node, outline.innermost⟩] := .whole node (.nil _ _)
  exact follows_foldl_append h hnode

/-- Closing the innermost element leaves the entries as they are. -/
theorem follows_pop (h : Follows builder.roots builder.elements outline) :
    Follows builder.pop.roots builder.pop.elements
      { outline with scopes := outline.scopes.tail } := by
  obtain ⟨roots, elements, pending⟩ := builder
  cases h with
  | top hroots => exact .top hroots
  | @inside outer around name attrs children entries houter hchildren =>
      have hclosed : Listed around.innermost around.entries.length
          [.element name attrs children.reverse]
          (⟨.opened name attrs, around.innermost⟩ :: entries) := by
        simpa using Listed.opened name attrs hchildren (.nil around.innermost _)
      exact @follows_foldl_append ⟨roots, outer, pending⟩ around _ _ houter hclosed

theorem follows_popMany (n : Nat) (h : Follows builder.roots builder.elements outline) :
    Follows (builder.popMany n).roots (builder.popMany n).elements
      { outline with scopes := outline.scopes.drop n } := by
  induction n generalizing builder outline with
  | zero => exact h
  | succ n ih => simpa [Builder.popMany] using ih (follows_pop h)

/-- The open elements have the names of the scopes. -/
theorem Follows.map_name {roots : List Node} {elements : List OpenElement}
    (h : Follows roots elements outline) :
    elements.map OpenElement.name = outline.scopes.map Scope.name := by
  induction h with
  | top => rfl
  | inside name attrs _ _ ih => simp [ih]

/-- When nothing is open, the roots have the outline. -/
theorem Follows.listed {roots : List Node} {elements : List OpenElement}
    (h : Follows roots elements outline) (hscopes : outline.scopes = []) :
    Listed none 0 roots.reverse outline.entries := by
  cases h with
  | top hroots => exact hroots
  | inside => cases hscopes

/-- Closing the nearest element of a name closes it and everything before it in the list. -/
theorem closeNearest_eq {name : String} {elements : List OpenElement} {scopes : List Scope}
    (hnames : elements.map OpenElement.name = scopes.map Scope.name) :
    closeNearest name scopes =
      match elements.findIdx? (·.name = name) with
      | none => scopes
      | some depth => scopes.drop (depth + 1) := by
  have hsame : elements.findIdx? (·.name = name) = scopes.findIdx? (·.name = name) := by
    have hfind := congrArg (List.findIdx? (· = name)) hnames
    simpa only [List.findIdx?_map, Function.comp_def] using hfind
  rw [hsame, closeNearest]
  cases hfind : scopes.findIdx? (·.name = name) with
  | none =>
      have hnone : scopes.any (·.name = name) = false := by
        rw [List.any_eq_false]
        intro scope hscope
        simpa using List.findIdx?_eq_none_iff.mp hfind scope hscope
      rw [hnone]
      rfl
  | some depth =>
      obtain ⟨hlt, hdepth⟩ := List.findIdx?_eq_some_iff_findIdx_eq.mp hfind
      have hsome : scopes.any (·.name = name) = true := by
        rw [List.any_eq_true, ← List.findIdx_lt_length, hdepth]
        exact hlt
      rw [hsome, List.dropWhile_eq_drop_findIdx_not]
      simp [hdepth]

/-- One event adds to the outline what it adds to the tree. -/
theorem follows_add (event : Event)
    (hpending : ∀ value, event = .text value → builder.pending = [])
    (h : Follows (builder.flush collapse).roots (builder.flush collapse).elements outline) :
    Follows ((builder.add collapse event).flush collapse).roots
      ((builder.add collapse event).flush collapse).elements (outline.add collapse event) := by
  cases event with
  | text value =>
      have hclear := hpending value rfl
      rw [Builder.flush_of_pending_eq_nil hclear] at h
      simp only [Builder.add, hclear, List.nil_append, Builder.flush, Outline.add]
      split
      · exact h
      · exact follows_append _ h
  | opened name attrs =>
      rw [Builder.flush_of_pending_eq_nil (Builder.pending_add (by simp))]
      exact .inside name attrs h (.nil _ _)
  | node node =>
      rw [Builder.flush_of_pending_eq_nil (Builder.pending_add (by simp))]
      exact follows_append node h
  | closed name =>
      rw [Builder.flush_of_pending_eq_nil (Builder.pending_add (by simp)), Builder.add,
        Outline.add, closeNearest_eq h.map_name]
      cases (builder.flush collapse).elements.findIdx? (·.name = name) with
      | none => exact h
      | some depth => exact follows_popMany _ h

end Follows

/-! ## Runs of text -/

/-- One of two neighbouring events is not a text. -/
def Apart (event next : Event) : Prop :=
  (∀ value, event ≠ .text value) ∨ ∀ value, next ≠ .text value

/-- Gluing leaves no two text events next to each other. -/
theorem isChain_glued (events : List Event) : (glued events).IsChain Apart := by
  induction events with
  | nil => exact .nil
  | cons event events ih =>
      cases event with
      | text value =>
          rw [glued]
          split
          · rename_i later rest hglued
            rw [hglued] at ih
            cases ih with
            | singleton => exact .singleton _
            | cons_cons hapart hrest =>
                exact .cons_cons (.inr (hapart.resolve_left (by simp))) hrest
          · rename_i hnext
            refine List.isChain_cons.mpr ⟨fun next hhead => .inr fun later heq => ?_, ih⟩
            obtain ⟨rest, hglued⟩ := List.head?_eq_some_iff.mp hhead
            exact hnext later rest (by rw [hglued, heq])
      | opened | node | closed =>
          exact List.isChain_cons.mpr ⟨fun _ _ => .inl (by simp), ih⟩

/-- The builder glues text events itself. -/
theorem foldl_add_glued (collapse : Bool) (builder : Builder) (events : List Event) :
    (glued events).foldl (Builder.add collapse) builder =
      events.foldl (Builder.add collapse) builder := by
  induction events generalizing builder with
  | nil => rfl
  | cons event events ih =>
      cases event with
      | text value =>
          rw [List.foldl_cons, ← ih, glued]
          split
          · rename_i later rest hglued
            simp [hglued, Builder.add]
          · rfl
      | opened | node | closed =>
          rw [List.foldl_cons, ← ih]
          rfl

/-! ## The tree of an outline -/

/-- The builder follows the outline of events without neighbouring texts. -/
theorem follows_foldl_add
    {collapse : Bool} {builder : Builder} {outline : Outline} {events : List Event}
    (hruns : events.IsChain Apart)
    (hpending : ∀ value rest, events = .text value :: rest → builder.pending = [])
    (h : Follows (builder.flush collapse).roots (builder.flush collapse).elements outline) :
    Follows ((events.foldl (Builder.add collapse) builder).flush collapse).roots
      ((events.foldl (Builder.add collapse) builder).flush collapse).elements
      (events.foldl (Outline.add collapse) outline) := by
  induction events generalizing builder outline with
  | nil => exact h
  | cons event events ih =>
      have hstep := follows_add event (fun value heq => hpending value events (by rw [heq])) h
      refine ih hruns.tail ?_ hstep
      rintro value rest rfl
      have hapart := (List.isChain_cons_cons.mp hruns).1
      exact Builder.pending_add (hapart.resolve_right fun hnext => hnext value rfl)

/-- The tree that is built has the outline of the events. -/
theorem listed_build (collapse : Bool) (events : List Event) :
    Listed none 0 (Builder.build collapse events) (outline collapse events).entries := by
  have hstart :
      Follows (Builder.flush collapse {}).roots (Builder.flush collapse {}).elements {} := by
    rw [Builder.flush_of_pending_eq_nil rfl]
    exact .top (.nil none 0)
  have hall := follows_foldl_add (isChain_glued events) (fun _ _ _ => rfl) hstart
  rw [foldl_add_glued] at hall
  have hlength := congrArg List.length hall.map_name
  rw [List.length_map, List.length_map] at hlength
  exact (follows_popMany _ hall).listed (List.drop_eq_nil_of_le hlength.ge)

/-- The tree that is built from events is the one tree with their outline: what is opened and what
is added stands in it once, in the order of the events, with one text for every run of text, and
every node is a child of the innermost element that is open at its event. -/
theorem eq_build_iff (collapse : Bool) (events : List Event) (tree : List Node) :
    tree = Builder.build collapse events ↔
      Listed none 0 tree (outline collapse events).entries := by
  have hbuilt := listed_build collapse events
  refine ⟨fun heq => heq ▸ hbuilt, fun htree => htree.unique ?_ hbuilt⟩
  simp

/-- Elements left open, an end tag that closes two of them, and one that closes nothing between
two parts of a text. -/
example :
    (outline true [.opened "ul" [], .opened "li" [], .text "one".toList, .closed "ul",
      .text " t".toList, .text "wo ".toList, .closed "b", .text "three".toList]).entries =
      [⟨.opened "ul" [], none⟩, ⟨.opened "li" [], some 0⟩, ⟨.whole (.text "one"), some 1⟩,
        ⟨.whole (.text "two"), none⟩, ⟨.whole (.text "three"), none⟩] := by
  decide

end Stencil.Markup
